import Datapath.Proofs.Kernel.WellFormed

/-!
# Shared constants

A builder keeps the constants that it has handed out in a table, next to the kernel that has them as
values. A call for a constant looks at the table alone, so the two have to agree: `Builder.Shared`
says that the table has *exactly* the constants of the kernel. If it missed one, a later call would
add that constant a second time, and if it had one too many, a call would hand out some other value.

`runAll_shared` is the result. Since the table has one entry for each integer and width, no constant
is there twice (`Shared.unique`).
-/

namespace Datapath

namespace Kernel

variable {k : Kernel} {v w : ValueId} {value : Int} {bits : Nat} {x : Value}

def IsConstant (k : Kernel) (v : ValueId) (value : Int) (bits : Nat) : Prop :=
  ∃ x, k.value? v = some x ∧ x.kind = .constant value ∧ x.type = .int bits

/-- A constant of the grown kernel was one before, or it is the new value. -/
theorem isConstant_push_iff : (k.push x).IsConstant v value bits ↔
    k.IsConstant v value bits ∨ v = ⟨k.size⟩ ∧ x.kind = .constant value ∧ x.type = .int bits := by
  constructor
  · rintro ⟨y, hy, hkind, htype⟩
    rcases value?_push_cases hy with ⟨rfl, rfl⟩ | hy
    · exact .inr ⟨rfl, hkind, htype⟩
    · exact .inl ⟨y, hy, hkind, htype⟩
  · rintro (⟨y, hy, hkind, htype⟩ | ⟨rfl, hkind, htype⟩)
    · exact ⟨y, value?_push_of_some hy, hkind, htype⟩
    · exact ⟨x, value?_push_self k x, hkind, htype⟩

/-- A parameter, a global or an instruction is no constant. -/
theorem isConstant_push_of_constant?_eq_none (other : x.constant? = none) :
    (k.push x).IsConstant v value bits ↔ k.IsConstant v value bits := by
  rw [isConstant_push_iff]
  refine or_iff_left ?_
  rintro ⟨-, hkind, -⟩
  simp [Value.constant?, hkind] at other

end Kernel

namespace Builder

variable {b c : Builder} {v w : ValueId} {value : Int} {bits : Nat}

/-- The table of a builder has the constants of its kernel and no others. -/
def Shared (b : Builder) : Prop := ∀ value bits v,
  b.constants.find? (value, bits) = some v ↔ b.kernel.IsConstant v value bits

namespace Shared

/-- In the beginning there is no constant and no entry. -/
theorem start (name : String) : (Builder.start name).Shared := by
  intro value bits v
  have absent : ¬ (Kernel.empty name).IsConstant v value bits := nofun
  exact iff_of_false nofun absent

/-- A constant that the table does not have is a new one for the kernel as well. -/
theorem constant (h : b.Shared) (fresh : b.constants.find? (value, bits) = none) :
    Shared { b with
      kernel := b.kernel.push ⟨none, .int bits, .constant value⟩
      constants := b.constants.insert (value, bits) ⟨b.kernel.size⟩ } := by
  intro value' bits' v
  show (b.constants.insert _ _).find? _ = _ ↔ (b.kernel.push _).IsConstant _ _ _
  rw [Table.find?_insert, Kernel.isConstant_push_iff, ← h value' bits' v]
  by_cases same : (value, bits) = (value', bits')
  · -- the entry of the new constant: so far there was none
    obtain ⟨rfl, rfl⟩ := Prod.mk.inj same
    rw [if_pos rfl, fresh, Option.some_inj]
    exact ⟨fun hv => .inr ⟨hv.symm, rfl, rfl⟩, fun hv => (hv.resolve_left nofun).1.symm⟩
  · -- any other entry is as it was, and the new value is not what it leads to
    rw [if_neg same]
    refine (or_iff_left ?_).symm
    rintro ⟨-, hkind, htype⟩
    cases hkind
    cases htype
    exact same rfl

/-- What is no constant leaves the table right as it is. -/
theorem push (h : b.Shared) {x : Value} (other : x.constant? = none) (value : Int) (bits : Nat)
    (v : ValueId) : b.constants.find? (value, bits) = some v ↔
      (b.kernel.push x).IsConstant v value bits :=
  (h value bits v).trans (Kernel.isConstant_push_of_constant?_eq_none other).symm

/-- **Each call keeps the table right.** Only one that adds a constant touches it. -/
theorem grow (h : b.Shared) (hg : b.Grows c) : c.Shared := by
  cases hg with
  | same => exact h
  | moveTo target => exact h
  | param name type => exact h.push (x := ⟨some name, type, .argument _⟩) rfl
  | global name type => exact h.push (x := ⟨some name, type, .global⟩) rfl
  | constant value bits fresh => exact h.constant fresh
  | block name => exact h
  | instruction i target block name type there isOpen known =>
      exact h.push (x := ⟨name, type, .instruction i target⟩) rfl

/-- The same integer at the same width is the same value. -/
theorem unique (h : b.Shared) (hv : b.kernel.IsConstant v value bits)
    (hw : b.kernel.IsConstant w value bits) : v = w := by
  have found := (h value bits v).mpr hv
  rw [(h value bits w).mpr hw] at found
  exact (Option.some.inj found).symm

end Shared

end Builder

/-- **The table and the kernel agree** after every script. -/
theorem Step.runAll_shared {name : String} {script : List Step} {b : Builder}
    (run : (runAll script (.start name)).2 = some b) : b.Shared :=
  runAll_induction .grow (.start name) run

end Datapath
