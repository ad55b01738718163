import Symphony.Kernel.Gdt

/-!
# Interrupt vectors

What the tables are for: a vector leads to the stub that was set for it last, on the level of the
kernel and in its code segment, and from a lower level on the stack of the task. Programs may ask
for the vectors whose type admits their level.
-/

namespace Symphony

/-- The bytes of the tables. -/
def Statics.Tables (p : Statics) (a : UInt64) : Prop :=
  Span p.gdt 56 a ∨ Span p.tss 104 a ∨ Span p.idt 4096 a

/-- What was set. -/
structure Vectors where
  /-- Stub and type of a vector. -/
  gates : UInt8 → Option (UInt64 × UInt8)
  /-- Stack of the kernel. -/
  stack : UInt64
  /-- The segment table is loaded. -/
  segments : Bool
  /-- The interrupt table is loaded. -/
  loaded : Bool

namespace Vectors

/-- Nothing was set. -/
def blank : Vectors := ⟨fun _ => none, 0, false, false⟩

/-- A vector gets a stub and a type. -/
def setEntry (v : Vectors) (entry : UInt8) (isr : UInt64) (type : UInt8) : Vectors :=
  { v with gates := fun vector => if vector = entry then some (isr, type) else v.gates vector }

/-- The vectors of the exceptions get their stubs, and the interrupt table is loaded. -/
def interruptInit (v : Vectors) (isr : Fin 32 → UInt64) : Vectors :=
  { v with
    gates := fun vector =>
      if h : vector.toNat < 32 then some (isr ⟨vector.toNat, h⟩, intGate) else v.gates vector
    loaded := true }

/-- The vector leads somewhere: its type is that of an interrupt gate or a trap gate that is there,
and a program that asks for it has a level that may. -/
def Admits (type : UInt8) (level : Nat) (software : Bool) : Prop :=
  (type.toNat % 32 = 14 ∨ type.toNat % 32 = 15) ∧ 128 ≤ type.toNat ∧
    (software = true → level ≤ type.toNat / 32 % 4)

instance (type : UInt8) (level : Nat) (software : Bool) : Decidable (Admits type level software) :=
  inferInstanceAs (Decidable (_ ∧ _ ∧ (_ → _)))

/-- Where a program is interrupted to, with the stack of the task. -/
def enter (v : Vectors) (task : Option UInt64) (level : Nat) (software : Bool) (vector : UInt8) :
    Option Core.Entry :=
  (v.gates vector).bind fun gate =>
    if Admits gate.2 level software then
      (if level = 0 then some none else task.map some).map fun stack =>
        { rip := gate.1
          cs := 0x08
          level := 0
          masks := gate.2.toNat % 32 = 14
          stack := stack }
    else none

end Vectors

end Symphony
