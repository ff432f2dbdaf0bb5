import Datapath.Proofs.Address.Tracing
import Datapath.Proofs.Width.Fixpoint

/-!
# Memory is as wide as what is stored in it

A store makes its address at least as wide as the stored value, and a load is at least as wide as
its address. The two addresses need not be the same value. Where both are traced to one pointer, the
width has to go down the one trace and up the other.

*Down* it goes along address computations, which are exactly as wide as their bases. Arithmetic
keeps it: a sum of a pointer and a number is at least as wide as the pointer, but makes the pointer
no wider. *Up* it goes along address computations and along the two operands whose widths arithmetic
reads, even through a cast. Looking through a branch gives it up, since branches carry no data.

So what is loaded is at least as wide as what was stored if the two traces meet in time: before the
first arithmetic on the way down (`Kernel.stored_le_loaded`). Where a pointer is advanced by
arithmetic first, what is stored there may be too wide for a load
(`Kernel.stored_not_le_loaded_advance`).
-/

namespace Datapath.Kernel

open Relation (ReflTransGen)

variable {k : Kernel} {v o a b p r s l x : ValueId} {w : ValueId → Option Nat}

/-! ## Steps of a trace -/

/-- Every step on the trace of `a` is one of the steps `R`. -/
def TracedBy (k : Kernel) (R : ValueId → ValueId → Prop) (a : ValueId) : Prop :=
  ∀ v o, ReflTransGen k.TracesOn a v → k.TracesOn v o → R v o

namespace TracedBy

variable {R : ValueId → ValueId → Prop}

/-- The way of a trace is a way by these steps. -/
theorem way (h : k.TracedBy R a) (way : ReflTransGen k.TracesOn a p) : ReflTransGen R a p := by
  induction way with
  | refl => exact .refl
  | tail way on ih => exact ih.tail (h _ _ way on)

/-- A trace ends at an argument or a global. -/
theorem of_isBase {y : Value} (hy : k.value? a = some y) (base : y.isBase = true) :
    k.TracedBy R a := by
  have stuck {o : ValueId} (on : k.TracesOn a o) : False := by
    have hnone := instruction?_of_isBase hy base
    cases on with
    | element known | operand known => cases hnone.symm.trans known
  intro v o way on
  rcases way.cases_head with rfl | ⟨u, first, -⟩
  · exact (stuck on).elim
  · exact (stuck first).elim

/-- A trace is the first step and what follows. -/
theorem head (on : k.TracesOn a o) (first : R a o) (rest : k.TracedBy R o) :
    k.TracedBy R a := by
  intro v u way next
  rcases way.cases_head with rfl | ⟨o', on', way⟩
  · rwa [next.unique on]
  · -- a trace goes on in one way at most, so the rest of it is the trace from there
    obtain rfl := on'.unique on
    exact rest v u way next

end TracedBy

def ElementOf (k : Kernel) (v o : ValueId) : Prop :=
  ∃ i, k.instruction? v = some i ∧ i.opcode = .getElementPtr ∧ i.address? = some o

/-- The steps along which widths go up: those from an address computation to its base, and those
from arithmetic to the operands that its width is read from, taken through a cast or as they are. -/
inductive Covers (k : Kernel) (v : ValueId) : ValueId → Prop
  | element {o : ValueId} (element : k.ElementOf v o) : Covers k v o
  | operand {i : Instruction} {n : Nat} {x : ValueId} (known : k.instruction? v = some i)
      (opcode : i.opcode.isArithmetic = true) (read : n < 2) (operand : i.operand? n = some x)
      (data : k.opcode? x ≠ some .condBr) : Covers k v (k.underlying x)

/-! ## Widths along a trace -/

/-- An address computation is exactly as wide as its base. -/
theorem ElementOf.width_eq (obeys : k.Obeys w) (h : k.ElementOf v o) : w v = w o := by
  obtain ⟨i, hi, opcode, base⟩ := h
  have hobeyed := obeys v i hi
  simp only [Instruction.Obeyed, opcode] at hobeyed
  simp only [Instruction.address?, opcode] at base
  exact hobeyed o base

/-- A value is at least as wide as what stands under a cast. -/
theorem width_underlying_le (obeys : k.Obeys w) (data : k.opcode? x ≠ some .condBr) :
    w (k.underlying x) ≤ w x := by
  rcases k.underlying_cases x with h | ⟨i, hi, operand, cast | branch⟩
  · rw [h]
    exact Width.le_refl _
  · have hcopy : i.opcode ∈ [.load, .trunc, .zext, .ret] := by
      cases hop : i.opcode <;> simp_all [Opcode.isCast]
    exact (Instruction.obeyed_of_copy hcopy operand).mp (obeys x i hi)
  · simp [opcode?, hi, branch] at data

/-- Along these steps widths do not shrink on the way up. -/
theorem Covers.width_le (obeys : k.Obeys w) (h : k.Covers v o) : w o ≤ w v := by
  cases h with
  | element h =>
      rw [h.width_eq obeys]
      exact Width.le_refl _
  | @operand i n x known opcode read operand data =>
      -- first through the cast, then from the operand to the result
      apply Width.le_trans (width_underlying_le obeys data)
      obtain ⟨left, right⟩ := (Instruction.obeyed_of_isArithmetic opcode).mp (obeys v i known)
      match n, read with
      | 0, _ => exact left x operand
      | 1, _ => exact right x operand

theorem width_eq_of_elements (obeys : k.Obeys w) (way : ReflTransGen k.ElementOf a r) :
    w a = w r := by
  induction way with
  | refl => rfl
  | tail _ step ih => exact ih.trans (step.width_eq obeys)

theorem width_le_of_covers (obeys : k.Obeys w) (way : ReflTransGen k.Covers b r) :
    w r ≤ w b := by
  induction way with
  | refl => exact Width.le_refl _
  | tail _ step ih => exact Width.le_trans (step.width_le obeys) ih

/-! ## From a store to a load -/

def StoresAt (k : Kernel) (s x a : ValueId) : Prop :=
  ∃ i, k.instruction? s = some i ∧ i.opcode = .store ∧ i.stored? = some x ∧ i.address? = some a

def LoadsFrom (k : Kernel) (l b : ValueId) : Prop :=
  ∃ i, k.instruction? l = some i ∧ i.opcode = .load ∧ i.address? = some b

/-- A store makes its address at least as wide as what it stores. -/
theorem StoresAt.width_le (obeys : k.Obeys w) (h : k.StoresAt s x a) : w x ≤ w a := by
  obtain ⟨i, hi, opcode, stored, address⟩ := h
  have hobeyed := obeys s i hi
  simp only [Instruction.Obeyed, opcode] at hobeyed
  simp only [Instruction.stored?, opcode] at stored
  simp only [Instruction.address?, opcode] at address
  exact (hobeyed x stored).2 a address

theorem StoresAt.isSome (finished : k.Finished w) (h : k.StoresAt s x a) : (w x).isSome := by
  obtain ⟨i, hi, opcode, stored, -⟩ := h
  have hready := finished.ready s i hi
  simp only [Instruction.Ready, opcode] at hready
  simp only [Instruction.stored?, opcode] at stored
  obtain ⟨⟨y, hy, known⟩, -⟩ := hready
  obtain rfl := Option.some.inj (stored.symm.trans hy)
  exact known

/-- A load is at least as wide as its address. -/
theorem LoadsFrom.width_le (obeys : k.Obeys w) (h : k.LoadsFrom l b) : w b ≤ w l := by
  obtain ⟨i, hi, opcode, address⟩ := h
  simp only [Instruction.address?, opcode] at address
  exact (Instruction.obeyed_of_copy (by simp [opcode]) address).mp (obeys l i hi)

/-- **What is loaded is at least as wide as what was stored**, if both addresses are traced to the
same pointer and the two traces meet in time: at a value `r` that the trace of the store comes to by
address computations alone, and that of the load by steps along which widths go up. The pointer
itself is such a value if these are all the steps there are. -/
theorem stored_le_loaded {name : String} {script : List Step}
    (built : Kernel.ofScript? name script = some k) (first : k.OperandsFirst)
    {overrides : Overrides} {m : Widths} (settled : k.infer overrides = .ok m)
    (store : k.StoresAt s x a) (load : k.LoadsFrom l b) (pointer : k.basePointer a = .ok p)
    (pointer' : k.basePointer b = .ok p)
    (meet : (∃ r, ReflTransGen k.ElementOf a r ∧ ReflTransGen k.Covers b r) ∨
      k.TracedBy k.ElementOf a ∧ k.TracedBy k.Covers b) :
    ∃ bits bits', m.width? x = some bits ∧ m.width? l = some bits' ∧ bits ≤ bits' := by
  have finished := finished_of_infer (ofScript?_wellFormed built) first settled
  obtain ⟨r, down, up⟩ : ∃ r, ReflTransGen k.ElementOf a r ∧ ReflTransGen k.Covers b r := by
    rcases meet with meet | ⟨down, up⟩
    · exact meet
    · -- both traces end at the pointer, and they meet there
      obtain ⟨way, -⟩ := traces_of_basePointer pointer
      obtain ⟨way', -⟩ := traces_of_basePointer pointer'
      exact ⟨p, down.way way, up.way way'⟩
  have hdown : m.width? x ≤ m.width? r :=
    width_eq_of_elements finished.obeys down ▸ store.width_le finished.obeys
  have hup : m.width? r ≤ m.width? l :=
    Width.le_trans (width_le_of_covers finished.obeys up) (load.width_le finished.obeys)
  have hle := Width.le_trans hdown hup
  obtain ⟨bits, hbits⟩ := Option.isSome_iff_exists.mp (store.isSome finished)
  rw [hbits] at hle
  obtain ⟨bits', hbits', hle⟩ := Width.some_le_iff.mp hle
  exact ⟨bits, bits', hbits, hbits', hle⟩

/-- A value is stored in a cell, and loaded from behind another cell of the same pointer. -/
def behindScript : List Step :=
  [.param "p" (.pointer (.int 8)), .param "i" (.int 8), .param "x" (.int 20), .block "entry",
    .moveTo ⟨0⟩, .elementPointer ⟨0⟩ [⟨1⟩] "cell", .store ⟨2⟩ ⟨3⟩,
    .elementPointer ⟨0⟩ [⟨1⟩] "other", .binary .add ⟨5⟩ ⟨1⟩ "behind", .load ⟨6⟩ "y", .ret none]

def behind : Kernel := (Kernel.ofScript? "behind" behindScript).getD (.empty "behind")

/-- Twenty bits are stored, so at least twenty are loaded. -/
theorem stored_le_loaded_behind : Kernel.ofScript? "behind" behindScript = some behind ∧
    ∃ m, behind.infer .empty = .ok m ∧ m.width? ⟨2⟩ = some 20 ∧ some 20 ≤ m.width? ⟨7⟩ := by
  have built : Kernel.ofScript? "behind" behindScript = some behind := rfl
  have first : behind.OperandsFirst :=
    operandsFirst_of_ascending (ofScript?_wellFormed built) (by decide +kernel)
  obtain ⟨m, hm, hx⟩ : ∃ m, behind.infer .empty = .ok m ∧ m.width? ⟨2⟩ = some 20 := by
    have h : (behind.infer .empty).toOption.map (·.width? ⟨2⟩) = some (some 20) := by decide +kernel
    obtain ⟨m, hm, hx⟩ := Option.map_eq_some_iff.mp h
    exact ⟨m, Outcome.toOption_eq_some.mp hm, hx⟩
  have pointer : behind.basePointer ⟨3⟩ = .ok ⟨0⟩ := by
    rw [← Outcome.toOption_eq_some]
    decide +kernel
  have pointer' : behind.basePointer ⟨6⟩ = .ok ⟨0⟩ := by
    rw [← Outcome.toOption_eq_some]
    decide +kernel
  have base {R : ValueId → ValueId → Prop} : behind.TracedBy R ⟨0⟩ := .of_isBase rfl rfl
  have cell : behind.ElementOf ⟨3⟩ ⟨0⟩ := ⟨_, rfl, rfl, rfl⟩
  have other : behind.ElementOf ⟨5⟩ ⟨0⟩ := ⟨_, rfl, rfl, rfl⟩
  have sum : behind.Covers ⟨6⟩ ⟨5⟩ :=
    .operand (n := 0) (x := ⟨5⟩) rfl rfl (by decide) rfl (by decide +kernel)
  have found : behind.findBasePointer ⟨5⟩ = .ok (some ⟨0⟩) := by
    rw [← Outcome.toOption_eq_some]
    decide +kernel
  have split : ([⟨5⟩, ⟨1⟩] : List ValueId) = [] ++ ⟨5⟩ :: [⟨1⟩] := rfl
  have onSum : behind.TracesOn ⟨6⟩ (behind.underlying ⟨5⟩) :=
    .operand rfl (.inl rfl) split (List.forall_mem_nil _) found
  have down : behind.TracedBy behind.ElementOf ⟨3⟩ := .head (.element rfl rfl rfl) cell base
  have up : behind.TracedBy behind.Covers ⟨6⟩ :=
    .head onSum sum (.head (.element rfl rfl rfl) (.element other) base)
  obtain ⟨bits, bits', hbits, hbits', hle⟩ := stored_le_loaded built first hm
    (s := ⟨4⟩) (x := ⟨2⟩) (l := ⟨7⟩) ⟨_, rfl, rfl, rfl, rfl⟩ ⟨_, rfl, rfl, rfl⟩ pointer pointer'
    (.inr ⟨down, up⟩)
  obtain rfl := Option.some.inj (hx.symm.trans hbits)
  exact ⟨built, m, hm, hx, hbits' ▸ Option.some_le_some.mpr hle⟩

/-! ### A pointer that is advanced by arithmetic -/

/-- Twenty bits are stored behind a pointer, at a distance that is added to it, and eight are loaded
from where it points. -/
def advanceScript : List Step :=
  [.param "p" (.pointer (.int 8)), .param "i" (.int 8), .param "x" (.int 20), .block "entry",
    .moveTo ⟨0⟩, .binary .add ⟨0⟩ ⟨1⟩ "q", .store ⟨2⟩ ⟨3⟩, .load ⟨0⟩ "y", .ret none]

def advance : Kernel := (Kernel.ofScript? "advance" advanceScript).getD (.empty "advance")

/-- Both addresses are traced to the same pointer, and what is loaded has fewer bits than what was
stored. -/
theorem stored_not_le_loaded_advance :
    Kernel.ofScript? "advance" advanceScript = some advance ∧ advance.OperandsFirst ∧
      advance.StoresAt ⟨4⟩ ⟨2⟩ ⟨3⟩ ∧ advance.LoadsFrom ⟨5⟩ ⟨0⟩ ∧
      advance.basePointer ⟨3⟩ = .ok ⟨0⟩ ∧ advance.basePointer ⟨0⟩ = .ok ⟨0⟩ ∧
      ∃ m, advance.infer .empty = .ok m ∧ m.width? ⟨2⟩ = some 20 ∧ m.width? ⟨5⟩ = some 8 := by
  have built : Kernel.ofScript? "advance" advanceScript = some advance := rfl
  have first : advance.OperandsFirst :=
    operandsFirst_of_ascending (ofScript?_wellFormed built) (by decide +kernel)
  refine ⟨built, first, ⟨_, rfl, rfl, rfl, rfl⟩, ⟨_, rfl, rfl, rfl⟩, ?_, ?_, ?_⟩
  · rw [← Outcome.toOption_eq_some]
    decide +kernel
  · rw [← Outcome.toOption_eq_some]
    decide +kernel
  · have h : (advance.infer .empty).toOption.map (fun m => (m.width? ⟨2⟩, m.width? ⟨5⟩))
        = some (some 20, some 8) := by decide +kernel
    obtain ⟨m, hm, hw⟩ := Option.map_eq_some_iff.mp h
    exact ⟨m, Outcome.toOption_eq_some.mp hm, congrArg Prod.fst hw, congrArg Prod.snd hw⟩

end Datapath.Kernel
