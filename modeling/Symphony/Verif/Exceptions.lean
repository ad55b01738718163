import Symphony.Spec.Exceptions
import Mathlib.Order.Fin.Basic
import Mathlib.Tactic.IntervalCases

/-!
# Exception frames

The common path turns the words that a stub leaves on the stack into a structure and back.
A stub with a zero in the place of an error code fits the vectors without an error code
only. Four stubs have both: their frames are shifted by a word, and `iretq` would return to
the error code.
-/

namespace Symphony

/-! ## The structure as words -/

/-- The words of a structure in the order of its fields. -/
def Regs.words (r : Regs) : List UInt64 :=
  [r.ds, r.r15, r.r14, r.r13, r.r12, r.r11, r.r10, r.r9, r.r8, r.rdi, r.rsi, r.rbp, r.rbx, r.rdx,
    r.rcx, r.rax, r.intn, r.errCode, r.rip, r.cs, r.rflags, r.rsp, r.ss]

/-- The words behind a pointer are those of the structure there. -/
theorem words_regs (m : Memory) (p : UInt64) : m.words p 23 = (m.regs p).words := by
  simp only [Memory.words, Memory.regs, Regs.words, UInt64.add_assoc]
  rfl

/-- A structure is known by its words. -/
theorem regs_eq_of_words {m : Memory} {p : UInt64} {r : Regs} (words : m.words p 23 = r.words) :
    m.regs p = r := by
  rw [words_regs] at words
  generalize m.regs p = r' at *
  cases r
  cases r'
  simp only [Regs.words, List.cons.injEq, and_true] at words
  simp only [Regs.mk.injEq]
  exact words

/-! ## The stubs -/

/-- The stubs differ in the vector and in the zero. -/
theorem isr_eq (vector : Fin 32) : isr vector =
    if PushesZero vector then stubWithZero (UInt64.ofNat vector) else stubAlone (UInt64.ofNat vector) := by
  obtain ⟨n, small⟩ := vector
  interval_cases n <;> rfl

/-- The stubs of the vectors without an error code push a zero. -/
theorem pushesZero_of_no_error : ∀ vector, ¬ PushesError vector → PushesZero vector := by
  decide

namespace Interrupted

/-- The words that the processor always pushes, the last one first. -/
def saved (p : Interrupted) : List UInt64 :=
  [p.rip, p.cs.toUInt64, p.rflags, p.cpu.rsp, p.ss.toUInt64]

/-- The words between the vector and the saved RIP. -/
def errorWords (vector : Fin 32) (error : UInt64) : List UInt64 :=
  (if PushesZero vector then [0] else []) ++ if PushesError vector then [error] else []

/-- The registers are still those of the program, and words were pushed down to a place. -/
structure Pushed (p : Interrupted) (top : UInt64) (words : List UInt64) (c : Cpu) : Prop where
  /-- General registers. -/
  reg : c.reg = p.cpu.reg
  /-- Data segment. -/
  ds : c.ds = p.cpu.ds
  /-- Stack pointer. -/
  rsp : c.rsp = top
  /-- The words from there upwards. -/
  words : c.stack words.length = words

/-- One more word is pushed. -/
theorem Pushed.push {p : Interrupted} {top : UInt64} {words : List UInt64} {c : Cpu}
    (pushed : p.Pushed top words c) (v : UInt64) (small : 8 * words.length < 2 ^ 63) :
    p.Pushed (top - 8) (v :: words) (c.push v) where
  reg := pushed.reg
  ds := pushed.ds
  rsp := by rw [Cpu.push_rsp, pushed.rsp]
  words := by rw [List.length_cons, c.stack_push v small, pushed.words]

/-- The processor pushes the state of the program. -/
theorem pushed_raise (p : Interrupted) (stack : UInt64) (vector : Fin 32) (error : UInt64) :
    if PushesError vector then
      p.Pushed (stack - 48) (error :: p.saved) (p.raise stack vector error)
    else p.Pushed (stack - 40) p.saved (p.raise stack vector error) := by
  have start : p.Pushed stack [] { p.cpu with rsp := stack } := ⟨rfl, rfl, rfl, rfl⟩
  have five := ((((start.push p.ss.toUInt64 (by decide : 8 * 0 < 2 ^ 63)).push p.cpu.rsp
    (by decide : 8 * 1 < 2 ^ 63)).push p.rflags (by decide : 8 * 2 < 2 ^ 63)).push
    p.cs.toUInt64 (by decide : 8 * 3 < 2 ^ 63)).push p.rip (by decide : 8 * 4 < 2 ^ 63)
  rw [show stack - 8 - 8 - 8 - 8 - 8 = stack - 40 by grind] at five
  by_cases hasError : PushesError vector
  · have six := five.push error (by decide : 8 * 5 < 2 ^ 63)
    rw [show stack - 40 - 8 = stack - 48 by grind] at six
    rw [if_pos hasError, raise, if_pos hasError]
    exact six
  · rw [if_neg hasError, raise, if_neg hasError]
    exact five

/-- Every stub reaches the common path behind its vector. -/
theorem reaches_common (p : Interrupted) (stack : UInt64) (vector : Fin 32) (error : UInt64) :
    ∃ c, Reaches interruptText ⟨isr vector, p.raise stack vector error⟩ ⟨exceptionCommon, c⟩ ∧
      p.Pushed (stack - 48 - 8 * UInt64.ofNat (errorWords vector error).length)
        (UInt64.ofNat vector :: (errorWords vector error ++ p.saved)) c := by
  have raised := p.pushed_raise stack vector error
  rw [isr_eq]
  by_cases hasError : PushesError vector
  · rw [if_pos hasError] at raised
    by_cases zero : PushesZero vector
    · have words : errorWords vector error = [0, error] := by simp [errorWords, hasError, zero]
      have pushed := (raised.push 0 (by decide : 8 * 6 < 2 ^ 63)).push (UInt64.ofNat vector)
        (by decide : 8 * 7 < 2 ^ 63)
      rw [show stack - 48 - 8 - 8 = stack - 48 - 8 * 2 by grind] at pushed
      rw [if_pos zero, words]
      exact ⟨_, .step rfl (.step rfl (.jump rfl .refl)), pushed⟩
    · have words : errorWords vector error = [error] := by simp [errorWords, hasError, zero]
      have pushed := raised.push (UInt64.ofNat vector) (by decide : 8 * 6 < 2 ^ 63)
      rw [if_neg zero, words]
      exact ⟨_, .step rfl (.jump rfl .refl), pushed⟩
  · rw [if_neg hasError] at raised
    have zero := pushesZero_of_no_error vector hasError
    have words : errorWords vector error = [0] := by simp [errorWords, hasError, zero]
    have pushed := (raised.push 0 (by decide : 8 * 5 < 2 ^ 63)).push (UInt64.ofNat vector)
      (by decide : 8 * 6 < 2 ^ 63)
    rw [show stack - 40 - 8 - 8 = stack - 48 - 8 * 1 by grind] at pushed
    rw [if_pos zero, words]
    exact ⟨_, .step rfl (.step rfl (.jump rfl .refl)), pushed⟩

/-! ## The common path -/

/-- The general registers in the order in which they are pushed. -/
def savedRegs : List Reg :=
  [.rax, .rcx, .rdx, .rbx, .rbp, .rsi, .rdi, .r8, .r9, .r10, .r11, .r12, .r13, .r14, .r15]

/-- All general registers are saved. -/
theorem mem_savedRegs (r : Reg) : r ∈ savedRegs := by
  cases r <;> decide

/-- The common path behind its pushes passes the stack pointer to the handler. -/
theorem reaches_call_of_saved (e : Cpu) : ∃ d,
    Reaches interruptText
      ⟨exceptionEntry.drop savedRegs.length ++ .call .archExceptionHandler :: exceptionExit, e⟩
      ⟨.call .archExceptionHandler :: exceptionExit, d⟩ ∧ d.reg .rdi = d.rsp ∧
      d.rsp = e.rsp - 8 ∧ d.mem = (e.push e.ds.toUInt64).mem := by
  refine ⟨_, .step rfl (.step rfl (.step rfl (.step rfl (.step rfl (.step rfl (.step rfl .refl)))))),
    ?_, ?_, ?_⟩
  · rfl
  · rfl
  · rfl

/-- The common path calls the handler with the saved state on top of the stack. -/
theorem reaches_call {p : Interrupted} {top : UInt64} {words : List UInt64} {c : Cpu}
    (pushed : p.Pushed top words c) (small : words.length < 2 ^ 32) :
    ∃ d, Reaches interruptText ⟨exceptionCommon, c⟩
        ⟨.call .archExceptionHandler :: exceptionExit, d⟩ ∧ d.reg .rdi = d.rsp ∧
      d.rsp = top - 128 ∧
      d.stack (16 + words.length) =
        p.cpu.ds.toUInt64 :: ((savedRegs.map p.cpu.reg).reverse ++ words) := by
  have count : savedRegs.length = 15 := rfl
  obtain ⟨saved, rsp, ds⟩ := c.stack_pushAll savedRegs (n := words.length) (by omega)
  rw [pushed.words, pushed.reg] at saved
  rw [pushed.rsp] at rsp
  rw [pushed.ds] at ds
  obtain ⟨d, reaches, rdi, below, mem⟩ := reaches_call_of_saved (c.pushAll savedRegs)
  refine ⟨d, Reaches.pushAll savedRegs reaches, rdi, ?_, ?_⟩
  · rw [below, rsp, count]
    change top - 8 * 15 - 8 = _
    grind
  · have onTop := (c.pushAll savedRegs).stack_push (c.pushAll savedRegs).ds.toUInt64
      (n := 15 + words.length) (by omega)
    rw [count] at saved
    rw [saved, ds] at onTop
    rw [Cpu.stack, mem, below, ds, show 16 + words.length = 15 + words.length + 1 by omega]
    exact onTop

/-- The epilogue brings back the registers that lie on the stack. -/
theorem reaches_iretq {ds : UInt64} {f : Reg → UInt64} {rest : List UInt64} {c : Cpu} {n : Nat}
    (words : c.stack (16 + n) = ds :: ((savedRegs.map f).reverse ++ rest)) :
    ∃ d, Reaches interruptText ⟨exceptionExit, c⟩ ⟨[.iretq], d⟩ ∧ d.reg = f ∧
      d.rsp = c.rsp + 144 := by
  have count : savedRegs.reverse.length = 15 := rfl
  rw [show 16 + n = 15 + n + 1 by omega] at words
  have tail := (Cpu.stack_pop words .rax).2
  rw [← List.map_reverse, ← count] at tail
  -- The selectors do not change the stack.
  obtain ⟨e, next⟩ : ∃ e : Cpu, e = { c.pop .rax with
    ds := ((c.pop .rax).reg .rax).toUInt16
    es := ((c.pop .rax).reg .rax).toUInt16 } := ⟨_, rfl⟩
  have same : e.stack (savedRegs.reverse.length + n) = savedRegs.reverse.map f ++ rest := by
    have mem : e.mem = (c.pop .rax).mem := by rw [next]
    have top : e.rsp = (c.pop .rax).rsp := by rw [next]
    rw [Cpu.stack, mem, top]
    exact tail
  have rsp : e.rsp = c.rsp + 8 := by rw [next]; rfl
  obtain ⟨restored, -, up, -⟩ := Cpu.popAll_of_stack same
  refine ⟨{ e.popAll savedRegs.reverse with rsp := (e.popAll savedRegs.reverse).rsp + 16 }, ?_, ?_, ?_⟩
  · apply Reaches.step rfl
    apply Reaches.step rfl
    apply Reaches.step rfl
    rw [← next]
    exact Reaches.popAll savedRegs.reverse (.step rfl .refl)
  · funext r
    exact restored r (List.mem_reverse.mpr (mem_savedRegs r))
  · change (e.popAll savedRegs.reverse).rsp + 16 = _
    rw [up, rsp, count]
    change c.rsp + 8 + 8 * 15 + 16 = _
    grind

/-! ## The whole way -/

/-- Their stubs have a word too many, and the others one word. -/
theorem length_errorWords (vector : Fin 32) (error : UInt64) :
    (errorWords vector error).length = if vector ∈ twice then 2 else 1 := by
  have cases (v : Fin 32) : (PushesZero v ∧ PushesError v ↔ v ∈ twice) ∧
      (PushesZero v ∨ PushesError v) := by
    revert v
    decide
  obtain ⟨both, some⟩ := cases vector
  unfold errorWords
  by_cases zero : PushesZero vector
  · by_cases hasError : PushesError vector
    · simp [both.mp ⟨zero, hasError⟩, zero, hasError]
    · have once := mt (fun listed => (both.mpr listed).2) hasError
      simp [once, zero, hasError]
  · have hasError := some.resolve_left zero
    have once := mt (fun listed => (both.mpr listed).1) zero
    simp [once, zero, hasError]

/-- The state in which the handler is called. -/
theorem reaches_handler (p : Interrupted) (stack : UInt64) (vector : Fin 32) (error : UInt64) :
    ∃ c, Reaches interruptText ⟨isr vector, p.raise stack vector error⟩
        ⟨.call .archExceptionHandler :: exceptionExit, c⟩ ∧ c.reg .rdi = c.rsp ∧
      c.rsp = stack - 176 - 8 * UInt64.ofNat (errorWords vector error).length ∧
      c.stack (22 + (errorWords vector error).length) = p.cpu.ds.toUInt64 ::
        ((savedRegs.map p.cpu.reg).reverse ++
          UInt64.ofNat vector :: (errorWords vector error ++ p.saved)) := by
  obtain ⟨c, common, pushed⟩ := p.reaches_common stack vector error
  have few : (errorWords vector error).length ≤ 2 := by
    rw [length_errorWords]
    split <;> decide
  have five : p.saved.length = 5 := rfl
  have length : (UInt64.ofNat vector :: (errorWords vector error ++ p.saved)).length =
      6 + (errorWords vector error).length := by
    rw [List.length_cons, List.length_append, five]
    omega
  obtain ⟨d, call, rdi, rsp, words⟩ := reaches_call pushed (by omega)
  rw [length, show 16 + (6 + (errorWords vector error).length) =
    22 + (errorWords vector error).length by omega] at words
  refine ⟨d, common.trans call, rdi, ?_, words⟩
  rw [rsp]
  grind

/-- A stub that has no word too many leaves one error code. -/
theorem errorWords_of_once {vector : Fin 32} (once : vector ∉ twice) (error : UInt64) :
    errorWords vector error = [if PushesError vector then error else 0] := by
  have length := length_errorWords vector error
  rw [if_neg once] at length
  unfold errorWords at *
  by_cases hasError : PushesError vector
  · by_cases zero : PushesZero vector
    · simp [zero, hasError] at length
    · simp [zero, hasError]
  · simp [pushesZero_of_no_error vector hasError, hasError]

/-- Where the stub leaves one error code, the exception is handled. -/
theorem handled_of_once (p : Interrupted) (stack : UInt64) {vector : Fin 32} (once : vector ∉ twice)
    (error : UInt64) : p.Handled stack vector error := by
  obtain ⟨c, call, rdi, rsp, words⟩ := p.reaches_handler stack vector error
  rw [errorWords_of_once once] at rsp words
  have described : c.stack 23 = (p.regs vector error).words := words
  refine ⟨c, call, ?_, ?_⟩
  · intro back
    apply regs_eq_of_words
    rw [rdi, c.words_push back (by decide), described]
  · intro c' same frame
    obtain ⟨d, returns, reg, up⟩ := reaches_iretq (n := 7) (frame.trans words)
    refine ⟨d, returns, reg, ?_⟩
    rw [up, same, rsp]
    change stack - 176 - 8 * 1 + 144 = _
    grind

/-- Where the stub pushes a word too many, the epilogue ends below the saved RIP. -/
theorem not_handled_of_twice (p : Interrupted) (stack : UInt64) {vector : Fin 32}
    (listed : vector ∈ twice) (error : UInt64) : ¬ p.Handled stack vector error := by
  intro handled
  obtain ⟨c', call', -, restores⟩ := handled
  obtain ⟨c, call, -, rsp, words⟩ := p.reaches_handler stack vector error
  rw [length_errorWords, if_pos listed] at rsp words
  obtain rfl : c' = c := congrArg Config.cpu (call'.unique call rfl rfl)
  obtain ⟨d', returns', -, here⟩ := restores c' rfl rfl
  obtain ⟨d, returns, -, up⟩ := reaches_iretq (n := 8) words
  obtain rfl : d' = d := congrArg Config.cpu (returns'.unique returns rfl rfl)
  rw [here, rsp] at up
  have shifted : stack - 40 = stack - 176 - 8 * 2 + 144 := up
  grind

/-- Every exception is handled apart from those with two error words: for these the structure
is shifted by a word, and `iretq` would find the error code in the place of RIP. -/
theorem handled_iff (p : Interrupted) (stack : UInt64) (vector : Fin 32) (error : UInt64) :
    p.Handled stack vector error ↔ vector ∉ ([17, 21, 29, 30] : List (Fin 32)) := by
  constructor
  · intro handled listed
    exact p.not_handled_of_twice stack listed error handled
  · intro once
    exact p.handled_of_once stack once error

/-- A program in user mode. -/
def sample : Interrupted where
  cpu := ⟨fun _ => 0, 0x7000, 0x23, 0x23, false, ⟨fun _ => 0, []⟩⟩
  rip := 0x401000
  cs := 0x2b
  rflags := 0x40202
  ss := 0x23

/-- An alignment check is not handled. -/
theorem sample_not_handled : ¬ sample.Handled 0x8000 17 0 :=
  sample.not_handled_of_twice 0x8000 (by decide) 0

end Interrupted

end Symphony
