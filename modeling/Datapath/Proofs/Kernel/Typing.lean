import Datapath.Proofs.Kernel.Rejected

/-!
# The types that a builder gives

Only `Builder.instruction` takes a type from its caller. Every other call works it out, from the
opcode and the types of operands: arithmetic has the type of its left operand, a load that of what
its address points to, an address computation points at an element.

`Instruction.HasType` is that typing, one rule for each sort of instruction, and `Kernel.WellTyped`
asks it of all values. A script of *plain* steps, which leave types to the builder, builds a
well-typed kernel (`wellTyped_of_ofScript?`).
-/

namespace Datapath

/-! ## Typing rules -/

def Kernel.typeOf? (k : Kernel) (v : ValueId) : Option Ty := (k.value? v).map (·.type)

/-- The type of an instruction by its opcode and the types of its operands. -/
inductive Instruction.HasType (types : ValueId → Option Ty) (i : Instruction) : Ty → Prop
  | arithmetic {left : ValueId} {type : Ty} (opcode : i.opcode.isArithmetic = true)
      (operand : i.operand? 0 = some left) (known : types left = some type) : HasType types i type
  | comparison (opcode : i.opcode = .icmp) : HasType types i (.int 1)
  | elementPointer {base : ValueId} {whole element : Ty} {depth : Nat}
      (opcode : i.opcode = .getElementPtr) (operand : i.operand? 0 = some base)
      (known : types base = some (.pointer whole)) (within : whole.within depth = .ok element) :
      HasType types i (.pointer element)
  | load {address : ValueId} {type : Ty} (opcode : i.opcode = .load)
      (operand : i.operand? 0 = some address) (known : types address = some (.pointer type)) :
      HasType types i type
  | cast {bits : Nat} (opcode : i.opcode.isCast = true) : HasType types i (.int bits)
  | effect (opcode : i.opcode = .store ∨ i.opcode.isTerminator = true) : HasType types i .void

/-- The type of a value is one that its kind allows. -/
def Value.TypeFits (types : ValueId → Option Ty) (x : Value) : Prop :=
  match x.kind with
  | .instruction i _ => i.HasType types x.type
  | .constant _ => ∃ bits, x.type = .int bits
  | _ => True

def Kernel.WellTyped (k : Kernel) : Prop :=
  ∀ v x, k.value? v = some x → x.TypeFits k.typeOf?

/-! ## Growing -/

namespace Kernel

variable {k : Kernel} {i : Instruction} {type : Ty} {v : ValueId} {x : Value}

theorem typeOf?_of_value? (h : k.value? v = some x) : k.typeOf? v = some x.type := by
  rw [typeOf?, h, Option.map_some]

/-- What was there keeps its type. -/
theorem typeOf?_push (h : k.typeOf? v = some type) (x : Value) :
    (k.push x).typeOf? v = some type := by
  obtain ⟨y, hy, rfl⟩ := Option.map_eq_some_iff.mp h
  exact typeOf?_of_value? (value?_push_of_some hy)

/-- A typing rests on the types of operands, so it survives growth. -/
theorem hasType_push (h : i.HasType k.typeOf? type) (x : Value) :
    i.HasType (k.push x).typeOf? type := by
  cases h with
  | arithmetic opcode operand known => exact .arithmetic opcode operand (typeOf?_push known x)
  | comparison opcode => exact .comparison opcode
  | elementPointer opcode operand known within =>
      exact .elementPointer opcode operand (typeOf?_push known x) within
  | load opcode operand known => exact .load opcode operand (typeOf?_push known x)
  | cast opcode => exact .cast opcode
  | effect opcode => exact .effect opcode

theorem typeFits_push (h : x.TypeFits k.typeOf?) (y : Value) : x.TypeFits (k.push y).typeOf? := by
  unfold Value.TypeFits at *
  split at h
  · exact hasType_push h y
  · exact h
  · trivial

/-- A value comes in with a type that its kind allows. -/
theorem WellTyped.push (h : k.WellTyped) (hx : x.TypeFits k.typeOf?) : (k.push x).WellTyped := by
  intro v y hy
  -- the new value, or one whose operands keep their types
  rcases value?_push_cases hy with ⟨-, rfl⟩ | hy
  · exact typeFits_push hx y
  · exact typeFits_push (h v y hy) x

theorem wellTyped_empty (name : String) : (Kernel.empty name).WellTyped := nofun

end Kernel

/-! ## Calls -/

namespace Builder

variable {b c : Builder} {i : Instruction} {type : Ty} {name : String} {o v : ValueId}

/-- The type that a call looks up is that of the value, and looking changes nothing. -/
theorem typeOf_eq_ok : typeOf o b = .ok type c ↔ b.kernel.typeOf? o = some type ∧ b = c := by
  unfold typeOf Kernel.typeOf?
  rw [Run.bind_eq_ok]
  simp only [Run.get_eq_ok]
  cases hx : b.kernel.value? o <;> simp [hx]

/-- What is emitted is a new value at the end of a block. -/
theorem kernel_of_emit (run : emit i type name b = .ok v c) : ∃ name block, c.kernel =
    (b.kernel.push ⟨name, type, .instruction i block⟩).append block ⟨b.kernel.size⟩ := by
  obtain ⟨block, r, hopen, hrest⟩ := Run.bind_eq_ok.mp run
  obtain rfl := (reads_openBlock i.opcode).of_ok hopen
  obtain ⟨d, r', hget, hrest⟩ := Run.bind_eq_ok.mp hrest
  obtain ⟨rfl, rfl⟩ := Run.get_eq_ok.mp hget
  cases hu : firstUnknown? r.kernel i.operands with
  -- an unknown operand would have been rejected
  | some o => simp [hu] at hrest
  | none =>
      rw [hu] at hrest
      cases hrest
      exact ⟨_, block, rfl⟩

/-- A constant is shared or a new value. -/
theorem kernel_of_constant {value : Int} {bits : Nat} (run : constant value bits b = .ok v c) :
    c.kernel = b.kernel ∨ c.kernel = b.kernel.push ⟨none, .int bits, .constant value⟩ := by
  obtain ⟨d, r, hget, run⟩ := Run.bind_eq_ok.mp run
  obtain ⟨rfl, rfl⟩ := Run.get_eq_ok.mp hget
  cases hf : b.constants.find? (value, bits) with
  | some w =>
      rw [hf] at run
      cases run
      exact .inl rfl
  | none =>
      rw [hf] at run
      cases run
      exact .inr rfl

/-- An instruction that may have its type comes in. -/
theorem wellTyped_emit (h : b.kernel.WellTyped) (typed : i.HasType b.kernel.typeOf? type)
    (run : emit i type name b = .ok v c) : c.kernel.WellTyped := by
  obtain ⟨name, block, hc⟩ := kernel_of_emit run
  rw [hc]
  exact h.push typed

theorem wellTyped_constant {value : Int} {bits : Nat} (h : b.kernel.WellTyped)
    (run : constant value bits b = .ok v c) : c.kernel.WellTyped := by
  rcases kernel_of_constant run with hc | hc
  · exact hc ▸ h
  · rw [hc]
    exact h.push ⟨bits, rfl⟩

/-- A call that goes on from the type of an operand. -/
theorem of_typeOf {P : Prop} {α : Type} {next : Ty → Build α} {a : α}
    (hn : ∀ {type}, b.kernel.typeOf? o = some type → next type b = .ok a c → P)
    (run : (typeOf o >>= next) b = .ok a c) : P := by
  obtain ⟨type, r, htype, hrest⟩ := Run.bind_eq_ok.mp run
  obtain ⟨known, rfl⟩ := typeOf_eq_ok.mp htype
  exact hn known hrest

/-- A call that goes on from what an operand points to. -/
theorem of_pointee {P : Prop} {α : Type} {why : Ty → Rejection} {next : Ty → Build α} {a : α}
    (hn : ∀ {element}, b.kernel.typeOf? o = some (.pointer element) → next element b = .ok a c → P)
    (run : (do
      let type ← typeOf o
      match type.pointee? with
      | none => reject (why type)
      | some element => next element) b = .ok a c) : P := by
  refine of_typeOf (fun {type} known hrest => ?_) run
  cases hp : type.pointee? with
  | none => simp [hp] at hrest
  | some element =>
      rw [hp] at hrest
      exact hn (Ty.pointee?_eq_some.mp hp ▸ known) hrest

end Builder

namespace Step

open Builder

/-- The step leaves the type of what it makes to the builder, which is so unless it is an
instruction of any sort or has an opcode that the call is not meant for. -/
def isPlain : Step → Bool
  | binary opcode .. => opcode.isArithmetic
  | cast opcode .. => opcode.isCast
  | instruction .. => false
  | _ => true

/-- A plain step keeps every value typed: each call has a rule of its own. -/
theorem wellTyped_run {s : Step} {b c : Builder} {answer : Answer} (plain : s.isPlain = true)
    (h : b.kernel.WellTyped) (run : s.run b = .ok answer c) : c.kernel.WellTyped := by
  cases s with
  | param name type =>
      cases run
      exact h.push (x := ⟨some name, type, .argument _⟩) trivial
  | global name type =>
      cases run
      exact h.push (x := ⟨some name, type, .global⟩) trivial
  | constant value bits =>
      obtain ⟨v, run, -⟩ := Run.map_eq_ok.mp run
      exact wellTyped_constant h run
  | block name =>
      cases run
      exact h
  | moveTo target =>
      cases run
      exact h
  | binary opcode left right name =>
      obtain ⟨v, run, -⟩ := Run.map_eq_ok.mp run
      refine of_typeOf (fun known => ?_) run
      exact wellTyped_emit h (.arithmetic plain rfl known)
  | compare predicate left right name =>
      obtain ⟨v, run, -⟩ := Run.map_eq_ok.mp run
      exact of_typeOf (fun _ => wellTyped_emit h (.comparison rfl)) run
  | elementPointer base indices name =>
      obtain ⟨v, run, -⟩ := Run.map_eq_ok.mp run
      refine of_pointee (fun {whole} known hrest => ?_) run
      cases hw : whole.within (indices.length - 1) with
      | error type => simp [hw] at hrest
      | ok element =>
          rw [hw] at hrest
          exact wellTyped_emit h (.elementPointer rfl rfl known hw) hrest
  | load address name =>
      obtain ⟨v, run, -⟩ := Run.map_eq_ok.mp run
      exact of_pointee (fun known => wellTyped_emit h (.load rfl rfl known)) run
  | store value address =>
      obtain ⟨v, run, -⟩ := Run.map_eq_ok.mp run
      refine of_typeOf (fun _ run => ?_) run
      exact of_pointee (fun _ => wellTyped_emit h (.effect (.inl rfl))) run
  | cast opcode value bits name =>
      obtain ⟨v, run, -⟩ := Run.map_eq_ok.mp run
      refine of_typeOf (fun _ => ?_) run
      exact wellTyped_emit h (.cast plain)
  | branch target =>
      obtain ⟨v, run, -⟩ := Run.map_eq_ok.mp run
      exact wellTyped_emit h (.effect (.inr rfl)) run
  | branchIf condition whenTrue whenFalse =>
      obtain ⟨v, run, -⟩ := Run.map_eq_ok.mp run
      exact of_typeOf (fun _ => wellTyped_emit h (.effect (.inr rfl))) run
  | switch value default cases =>
      obtain ⟨v, run, -⟩ := Run.map_eq_ok.mp run
      exact of_typeOf (fun _ => wellTyped_emit h (.effect (.inr rfl))) run
  | ret value =>
      obtain ⟨v, run, -⟩ := Run.map_eq_ok.mp run
      cases value with
      | none => exact wellTyped_emit h (.effect (.inr rfl)) run
      | some v => exact of_typeOf (fun _ => wellTyped_emit h (.effect (.inr rfl))) run
  | instruction opcode operands type name => cases plain

/-- So does a script of plain steps. -/
theorem wellTyped_runAll {script : List Step} (plain : ∀ s ∈ script, s.isPlain = true)
    {b last : Builder} (h : b.kernel.WellTyped) {answers : List (Outcome Answer)}
    (run : runAll script b = (answers, some last)) : last.kernel.WellTyped := by
  induction script generalizing b answers with
  | nil =>
      cases run
      exact h
  | cons s rest ih =>
      have hrest := fun t ht => plain t (List.mem_cons_of_mem s ht)
      rcases cases_of_runAll_cons run with ⟨answer, c, later, hs, hlater, -⟩ |
        ⟨why, later, -, hlater, -⟩
      · -- answered
        exact ih hrest (wellTyped_run (plain s List.mem_cons_self) h hs) hlater
      · -- rejected, and the builder left alone
        exact ih hrest h hlater

end Step

/-- **Plain steps build well-typed kernels.** -/
theorem Kernel.wellTyped_of_ofScript? {name : String} {script : List Step} {k : Kernel}
    (plain : ∀ s ∈ script, s.isPlain = true) (built : Kernel.ofScript? name script = some k) :
    k.WellTyped := by
  obtain ⟨last, hlast, rfl⟩ := Option.map_eq_some_iff.mp built
  exact Step.wellTyped_runAll plain (Kernel.wellTyped_empty name) (Prod.ext rfl hlast)

end Datapath
