import Symphony.Library.Memory
import Mathlib.Logic.Function.Basic
import Mathlib.Logic.Relation

/-!
# Straight-line code on a stack machine

A few instructions of the x86-64 over labels of any type: the stack, the general
registers and the data segments. Code runs up to a call or to the return from an
interrupt, where the processor leaves the text. The stack is seen as a list of words
with its top first, so that pushing and popping are the operations of a list.
-/

namespace Symphony

/-! ## Words on a stack -/

/-- The words from an address upwards. -/
def Memory.words (m : Memory) (a : UInt64) : Nat → List UInt64
  | 0 => []
  | count + 1 => m.load64 a :: m.words (a + 8) count

/-- Addresses beyond a word are no addresses of it. -/
theorem not_span_word {a x : UInt64} {count : Nat} (small : 8 * count < 2 ^ 63)
    (inside : Span (a + 8) (8 * count) x) : ¬ Span a 8 x := by
  have distance : x - (a + 8) = x - a - 8 := by grind
  have eight : (8 : UInt64).toNat = 8 := rfl
  unfold Span at *
  rw [distance, UInt64.toNat_sub, eight] at inside
  have bound := (x - a).toNat_lt
  omega

/-- Words are equal where their bytes are. -/
theorem Memory.words_congr {m m' : Memory} {a : UInt64} {count : Nat} (small : 8 * count < 2 ^ 63)
    (same : ∀ x, Span a (8 * count) x → m'.byte x = m.byte x) :
    m'.words a count = m.words a count := by
  induction count generalizing a with
  | zero => rfl
  | succ count ih =>
    have first : m'.load64 a = m.load64 a := by
      apply Memory.load64_congr
      intro x inside
      apply same
      unfold Span at *
      omega
    have rest : m'.words (a + 8) count = m.words (a + 8) count := by
      apply ih (by omega)
      intro x inside
      apply same
      have distance : x - (a + 8) = x - a - 8 := by grind
      have eight : (8 : UInt64).toNat = 8 := rfl
      unfold Span at *
      rw [distance, UInt64.toNat_sub, eight] at inside
      have bound := (x - a).toNat_lt
      omega
    rw [words, words, first, rest]

/-- A word stored below others comes before them. -/
theorem Memory.words_store (m : Memory) (a v : UInt64) {count : Nat} (small : 8 * count < 2 ^ 63) :
    (m.store64 (a - 8) v).words (a - 8) (count + 1) = v :: m.words a count := by
  have back : a - 8 + 8 = a := by grind
  rw [words, load64_store64, back]
  congr 1
  apply words_congr small
  intro x inside
  rw [← back] at inside
  exact (store64_writes m (a - 8) v).byte_eq (not_span_word small inside)

/-! ## The processor -/

/-- General registers apart from the stack pointer. -/
inductive Reg where
  | rax | rcx | rdx | rbx | rbp | rsi | rdi | r8 | r9 | r10 | r11 | r12 | r13 | r14 | r15
deriving DecidableEq

/-- The part of the processor's state that the instructions below use. -/
structure Cpu where
  /-- General registers. -/
  reg : Reg → UInt64
  /-- Stack pointer. -/
  rsp : UInt64
  /-- Data segment selector. -/
  ds : UInt16
  /-- Extra segment selector. -/
  es : UInt16
  /-- Direction flag. -/
  direction : Bool
  /-- Memory. -/
  mem : Memory

namespace Cpu

/-- Push a word. -/
def push (c : Cpu) (v : UInt64) : Cpu :=
  { c with rsp := c.rsp - 8, mem := c.mem.store64 (c.rsp - 8) v }

/-- Pop a word into a register. -/
def pop (c : Cpu) (r : Reg) : Cpu :=
  { c with reg := Function.update c.reg r (c.mem.load64 c.rsp), rsp := c.rsp + 8 }

/-- The words on top of the stack. -/
def stack (c : Cpu) (count : Nat) : List UInt64 := c.mem.words c.rsp count

@[simp] theorem push_rsp (c : Cpu) (v : UInt64) : (c.push v).rsp = c.rsp - 8 := rfl
@[simp] theorem pop_rsp (c : Cpu) (r : Reg) : (c.pop r).rsp = c.rsp + 8 := rfl

/-- A pushed word is on top. -/
theorem stack_push (c : Cpu) (v : UInt64) {n : Nat} (small : 8 * n < 2 ^ 63) :
    (c.push v).stack (n + 1) = v :: c.stack n :=
  c.mem.words_store c.rsp v small

/-- A push leaves the words above it. -/
theorem words_push (c : Cpu) (v : UInt64) {n : Nat} (small : 8 * n < 2 ^ 63) :
    (c.push v).mem.words c.rsp n = c.stack n := by
  have tail := (List.cons.inj (c.stack_push v small)).2
  rwa [push_rsp, show c.rsp - 8 + 8 = c.rsp by grind] at tail

/-- Popping takes the top. -/
theorem stack_pop {c : Cpu} {v : UInt64} {rest : List UInt64} {n : Nat}
    (top : c.stack (n + 1) = v :: rest) (r : Reg) :
    (c.pop r).reg = Function.update c.reg r v ∧ (c.pop r).stack n = rest := by
  obtain ⟨value, tail⟩ := List.cons.inj top
  constructor
  · rw [← value]
    rfl
  · exact tail

/-- Push several registers. -/
def pushAll (regs : List Reg) (c : Cpu) : Cpu := regs.foldl (fun c r => c.push (c.reg r)) c

/-- Pop several registers. -/
def popAll (regs : List Reg) (c : Cpu) : Cpu := regs.foldl pop c

/-- Pushed registers lie on the stack with the last one on top. -/
theorem stack_pushAll (regs : List Reg) (c : Cpu) {n : Nat}
    (small : 8 * (regs.length + n) < 2 ^ 63) :
    (pushAll regs c).stack (regs.length + n) = (regs.map c.reg).reverse ++ c.stack n ∧
      (pushAll regs c).rsp = c.rsp - 8 * UInt64.ofNat regs.length ∧
      (pushAll regs c).ds = c.ds := by
  induction regs generalizing c n with
  | nil =>
    rw [List.length_nil, Nat.zero_add]
    refine ⟨rfl, ?_, rfl⟩
    change c.rsp = c.rsp - 8 * 0
    grind
  | cons r regs ih =>
    rw [List.length_cons] at small ⊢
    obtain ⟨words, rsp, ds⟩ := ih (c.push (c.reg r)) (n := n + 1) (by omega)
    rw [stack_push c _ (by omega)] at words
    rw [show regs.length + 1 + n = regs.length + (n + 1) by omega]
    refine ⟨?_, ?_, ds⟩
    · change (pushAll regs (c.push (c.reg r))).stack _ = _
      rw [words, List.map_cons, List.reverse_cons, List.append_assoc]
      rfl
    · change (pushAll regs (c.push (c.reg r))).rsp = _
      rw [rsp, push_rsp, UInt64.ofNat_add]
      grind

/-- Popped registers have the words of the stack. -/
theorem popAll_of_stack {regs : List Reg} {f : Reg → UInt64} {rest : List UInt64} {c : Cpu}
    {n : Nat} (words : c.stack (regs.length + n) = regs.map f ++ rest) :
    (∀ r ∈ regs, (popAll regs c).reg r = f r) ∧
      (∀ r, r ∉ regs → (popAll regs c).reg r = c.reg r) ∧
      (popAll regs c).rsp = c.rsp + 8 * UInt64.ofNat regs.length ∧
      (popAll regs c).ds = c.ds := by
  induction regs generalizing c with
  | nil =>
    refine ⟨fun r member => absurd member List.not_mem_nil, fun r _ => rfl, ?_, rfl⟩
    change c.rsp = c.rsp + 8 * 0
    grind
  | cons r regs ih =>
    rw [List.length_cons, show regs.length + 1 + n = regs.length + n + 1 by omega,
      List.map_cons, List.cons_append] at words
    obtain ⟨reg, tail⟩ := stack_pop words r
    obtain ⟨inside, outside, rsp, ds⟩ := ih tail
    change (∀ r' ∈ r :: regs, (popAll regs (c.pop r)).reg r' = f r') ∧
      (∀ r', r' ∉ r :: regs → (popAll regs (c.pop r)).reg r' = c.reg r') ∧
      (popAll regs (c.pop r)).rsp = _ ∧ (popAll regs (c.pop r)).ds = c.ds
    refine ⟨?_, ?_, ?_, ds⟩
    · intro r' member
      by_cases later : r' ∈ regs
      · exact inside r' later
      · have same : r' = r := (List.mem_cons.mp member).resolve_right later
        rw [outside r' later, reg, same, Function.update_self]
    · intro r' absent
      rw [List.mem_cons, not_or] at absent
      rw [outside r' absent.2, reg, Function.update_of_ne absent.1]
    · rw [rsp, pop_rsp, List.length_cons, UInt64.ofNat_add]
      grind

end Cpu

/-! ## Code -/

/-- Instructions over labels. -/
inductive Instr (L : Type) where
  /-- `push r`. -/
  | push (r : Reg)
  /-- `push v` of an immediate value. -/
  | pushImm (v : UInt64)
  /-- `pop r`. -/
  | pop (r : Reg)
  /-- `mov r, ds`; the selector is zero-extended. -/
  | movFromDs (r : Reg)
  /-- `mov` of an immediate value to the low 16 bits of a register. -/
  | movImm16 (r : Reg) (v : UInt16)
  /-- `mov ds` from the low 16 bits of a register. -/
  | movToDs (r : Reg)
  /-- `mov es` from the low 16 bits of a register. -/
  | movToEs (r : Reg)
  /-- `mov r, rsp`. -/
  | movFromRsp (r : Reg)
  /-- `add rsp, v`. -/
  | addRsp (v : UInt64)
  /-- `cld`. -/
  | cld
  /-- `jmp l`. -/
  | jmp (l : L)
  /-- `call l`. -/
  | call (l : L)
  /-- `iretq`. -/
  | iretq

/-- Effect of an instruction that goes on to the next one. -/
def Instr.exec {L : Type} : Instr L → Cpu → Option Cpu
  | push r, c => some (c.push (c.reg r))
  | pushImm v, c => some (c.push v)
  | pop r, c => some (c.pop r)
  | movFromDs r, c => some { c with reg := Function.update c.reg r c.ds.toUInt64 }
  | movImm16 r v, c =>
    some { c with reg := Function.update c.reg r (c.reg r &&& ~~~ 0xffff ||| v.toUInt64) }
  | movToDs r, c => some { c with ds := (c.reg r).toUInt16 }
  | movToEs r, c => some { c with es := (c.reg r).toUInt16 }
  | movFromRsp r, c => some { c with reg := Function.update c.reg r c.rsp }
  | addRsp v, c => some { c with rsp := c.rsp + v }
  | cld, c => some { c with direction := false }
  | jmp _, _ => none
  | call _, _ => none
  | iretq, _ => none

/-- The code that is left to run, and the processor. -/
structure Config (L : Type) where
  /-- Instructions from the current one on. -/
  code : List (Instr L)
  /-- State of the processor. -/
  cpu : Cpu

/-- One step. A call, a return from an interrupt and a jump out of the text end the run. -/
def Config.step {L : Type} (text : L → Option (List (Instr L))) : Config L → Option (Config L)
  | ⟨[], _⟩ => none
  | ⟨.jmp l :: _, c⟩ => (text l).map fun code => ⟨code, c⟩
  | ⟨i :: rest, c⟩ => (i.exec c).map fun c => ⟨rest, c⟩

/-- A run leads from one configuration to the other. -/
def Reaches {L : Type} (text : L → Option (List (Instr L))) : Config L → Config L → Prop :=
  Relation.ReflTransGen fun k k' => k.step text = some k'

namespace Reaches

variable {L : Type} {text : L → Option (List (Instr L))}

/-- An instruction that goes on is one step. -/
theorem step {i : Instr L} {rest : List (Instr L)} {c d : Cpu} {k : Config L}
    (next : i.exec c = some d) (later : Reaches text ⟨rest, d⟩ k) : Reaches text ⟨i :: rest, c⟩ k := by
  refine Relation.ReflTransGen.head ?_ later
  cases i <;> first
    | (cases next; rfl)
    | cases next

/-- A jump inside the text is one step. -/
theorem jump {l : L} {code rest : List (Instr L)} {c : Cpu} {k : Config L} (target : text l = some code)
    (later : Reaches text ⟨code, c⟩ k) : Reaches text ⟨.jmp l :: rest, c⟩ k := by
  refine Relation.ReflTransGen.head ?_ later
  rw [Config.step, target]
  rfl

/-- A sequence of pushes. -/
theorem pushAll (regs : List Reg) {rest : List (Instr L)} {c : Cpu} {k : Config L}
    (later : Reaches text ⟨rest, c.pushAll regs⟩ k) :
    Reaches text ⟨regs.map .push ++ rest, c⟩ k := by
  induction regs generalizing c with
  | nil => exact later
  | cons r regs ih => exact step rfl (ih later)

/-- A sequence of pops. -/
theorem popAll (regs : List Reg) {rest : List (Instr L)} {c : Cpu} {k : Config L}
    (later : Reaches text ⟨rest, c.popAll regs⟩ k) :
    Reaches text ⟨regs.map .pop ++ rest, c⟩ k := by
  induction regs generalizing c with
  | nil => exact later
  | cons r regs ih => exact step rfl (ih later)

/-- Two runs that have both ended are at the same place. -/
theorem unique {k k' k'' : Config L} (first : Reaches text k k') (second : Reaches text k k'')
    (endFirst : k'.step text = none) (endSecond : k''.step text = none) : k' = k'' := by
  have stays {a b : Config L} (ended : a.step text = none) (run : Reaches text a b) : a = b := by
    rcases Relation.ReflTransGen.cases_head run with same | ⟨next, step, -⟩
    · exact same
    · rw [ended] at step
      cases step
  have right : Relator.RightUnique fun k k' : Config L => k.step text = some k' :=
    fun a b c left right => Option.some.inj (left.symm.trans right)
  rcases Relation.ReflTransGen.total_of_right_unique right first second with after | before
  · exact stays endFirst after
  · exact (stays endSecond before).symm

end Reaches

end Symphony
