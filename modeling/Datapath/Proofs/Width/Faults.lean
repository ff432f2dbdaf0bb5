import Datapath.Proofs.Width.Handling
import Datapath.Proofs.Width.Rules

/-!
# What makes inference fail

`Infer.FaultsAt good act p` says that whatever goes wrong in a step of inference from `p` is `good`,
and `Infer.FaultsAre` says it from anywhere. Both are kept by sequencing, so what holds of the few
places where a rule gives up holds of the rule (`Infer.faultsAt_rule`), of handling a value and of a
whole pass.

Want of passes is no fault of a rule: only the loop around the passes gives up for that.
-/

namespace Datapath

/-! ## What rules need -/

namespace Opcode

/-- Whether the analyses understand the opcode. -/
def isSupported : Opcode → Bool
  | switch | phi | call | and | or | xor | shl | lshr | sext | select => false
  | _ => true

/-- The number of operands that the rule of an instruction asks for. -/
def arity : Opcode → Nat
  | add | sub | mul | sdiv | udiv | ashr | icmp | store => 2
  | load | getElementPtr | trunc | zext | condBr => 1
  | _ => 0

theorem arity_of_isArithmetic {o : Opcode} (h : o.isArithmetic = true) : o.arity = 2 := by
  cases o <;> simp_all [isArithmetic, arity]

end Opcode

/-! ## Faults of steps -/

/-- A fault that has nothing to do with the passes allowed. -/
def Fault.OfKernel : Fault → Prop
  | .rejected (.noFixpoint ..) => False
  | _ => True

/-- A type without a width is a fault of the kernel. -/
theorem ofKernel_naturalWidth {v : ValueId} {type : Ty} {fault : Fault}
    (h : naturalWidth v type = .error fault) : fault.OfKernel := by
  unfold naturalWidth at h
  split at h
  · cases h
  · obtain rfl := Outcome.reject_eq_error.mp h
    trivial

namespace Infer

variable {α β : Type} {good : Fault → Prop} {p : Progress}

/-- Whatever goes wrong in a step from `p` is of a certain sort. -/
def FaultsAt (good : Fault → Prop) (act : Infer α) (p : Progress) : Prop :=
  ∀ fault q, act p = .error fault q → good fault

namespace FaultsAt

/-- Steps in a row go wrong as one of them does. -/
theorem bind {x : Infer α} {f : α → Infer β} (hx : FaultsAt good x p)
    (hf : ∀ a q, x p = .ok a q → FaultsAt good (f a) q) : FaultsAt good (x >>= f) p := by
  intro fault q h
  rcases Run.bind_eq_error.mp h with h | ⟨a, r, ha, h⟩
  · exact hx _ _ h
  · exact hf a r ha _ _ h

/-- What succeeds does not go wrong. -/
theorem of_ok {act : Infer α} {a : α} {q : Progress} (h : act p = .ok a q) :
    FaultsAt good act p := by
  intro fault r e
  cases h.symm.trans e

protected theorem pure (a : α) : FaultsAt good (pure a : Infer α) p :=
  .of_ok (Run.pure_eq_ok.mpr ⟨rfl, rfl⟩)

protected theorem get : FaultsAt good (get : Infer Progress) p :=
  .of_ok (Run.get_eq_ok.mpr ⟨rfl, rfl⟩)

protected theorem modify (f : Progress → Progress) :
    FaultsAt good (modify f : Infer PUnit) p :=
  .of_ok (a := ⟨⟩) (Run.modify_eq_ok.mpr rfl)

protected theorem raise (v : ValueId) (bits : Nat) : FaultsAt good (raise v bits) p :=
  .of_ok (raise_eq_ok.mpr ⟨rfl, rfl⟩)

protected theorem throw {fault : Fault} (h : good fault) :
    FaultsAt good (throw fault : Infer α) p := by
  intro fault' q e
  cases e
  exact h

protected theorem reject {why : Rejection} (h : good (.rejected why)) :
    FaultsAt good (reject why : Infer α) p := .throw h

protected theorem ofExcept {x : Outcome α} (h : ∀ fault, x = .error fault → good fault) :
    FaultsAt good (MonadExcept.ofExcept x : Infer α) p := by
  cases x with
  | error fault => exact .throw (h fault rfl)
  | ok a => exact .pure a

end FaultsAt

/-- Whatever goes wrong in a step is of a certain sort. -/
def FaultsAre (good : Fault → Prop) (act : Infer α) : Prop :=
  ∀ p fault q, act p = .error fault q → good fault

/-- The same wherever the steps begin. -/
theorem FaultsAre.bind {x : Infer α} {f : α → Infer β} (hx : FaultsAre good x)
    (hf : ∀ a, FaultsAre good (f a)) : FaultsAre good (x >>= f) := fun p =>
  FaultsAt.bind (hx p) fun a q _ => hf a q

/-- Visiting along a list keeps what every visit keeps, and fails as visits fail. -/
theorem faultsAt_visitAll (inv : Progress → Prop) {visit : ValueId → Infer Bool}
    {vs : List ValueId} (faults : ∀ o ∈ vs, ∀ q, inv q → FaultsAt good (visit o) q)
    (keeps : ∀ o q c s, inv q → visit o q = .ok c s → inv s) (hp : inv p) :
    FaultsAt good (visitAll visit vs) p := by
  induction vs generalizing p with
  | nil => exact .pure false
  | cons o rest ih =>
      refine FaultsAt.bind (faults o List.mem_cons_self p hp) fun here q hq => ?_
      refine FaultsAt.bind (ih (fun u hu => faults u (List.mem_cons_of_mem o hu)) ?_) fun _ _ _ =>
        .pure _
      exact keeps o p here q hp hq

/-! ## The rules -/

/-- Visits of the operands of `i` keep an invariant, and fail as they may. Once an operand was
visited, so does asking for its width. -/
structure Visits (good : Fault → Prop) (inv : Progress → Prop) (visit : ValueId → Infer Bool)
    (i : Instruction) : Prop where
  faults : ∀ o ∈ i.operands, ∀ p, inv p → FaultsAt good (visit o) p
  keeps : ∀ o p c q, inv p → visit o p = .ok c q → inv q
  known : ∀ {os o p c q}, inv p → visitAll visit os p = .ok c q → o ∈ os → o ∈ i.operands →
    FaultsAt good (width o) q

/-- A rule that cannot be applied to `v` fails as it may. -/
structure Excused (good : Fault → Prop) (k : Kernel) (v : ValueId) (i : Instruction)
    (block : BlockId) : Prop where
  operand : ∀ {n}, n < i.opcode.arity → i.operands.length ≤ n →
    good (.rejected (.malformed (.missingOperand i.opcode v n)))
  opcode : i.opcode.isSupported = false → good (.rejected (.unsupportedOpcode k.name v i.opcode))
  terminator : i.opcode.isSupported = false → ∀ b, k.block block = .ok b →
    good (.rejected (.unsupportedTerminator k.name b.name i.opcode))
  block : ∀ fault, k.block block = .error fault → good fault

section

variable {inv : Progress → Prop} {visit : ValueId → Infer Bool} {k : Kernel} {v o : ValueId}
  {i : Instruction} {block : BlockId}

/-! Each step of a rule hands on what the next one needs: -/

/-- An operand is missing only where the rule reads one that is not there. -/
theorem faultsAt_operand (excused : Excused good k v i block) {n : Nat}
    (reads : n < i.opcode.arity) {f : ValueId → Infer β}
    (hf : ∀ o, i.operand? n = some o → o ∈ i.operands → FaultsAt good (f o) p) :
    FaultsAt good (operand v i n >>= f) p := by
  refine FaultsAt.bind ?_ fun o q h => ?_
  · unfold operand
    cases ho : i.operand? n with
    | some o => exact .pure o
    | none => exact .reject (excused.operand reads (List.getElem?_eq_none_iff.mp ho))
  · obtain ⟨ho, rfl⟩ := operand_eq_ok.mp h
    exact hf o ho (Instruction.mem_operands_of_operand? ho)

/-- A visit keeps the invariant for what follows. -/
theorem faultsAt_visit (visits : Visits good inv visit i) (ho : o ∈ i.operands) (hp : inv p)
    {f : Bool → Infer β} (hf : ∀ c q, inv q → FaultsAt good (f c) q) :
    FaultsAt good (visit o >>= f) p :=
  FaultsAt.bind (visits.faults o ho p hp) fun c q h => hf c q (visits.keeps o p c q hp h)

/-- The width of an operand is asked for after its visit. -/
theorem faultsAt_widthOf (visits : Visits good inv visit i) (ho : o ∈ i.operands) (hp : inv p)
    {f : Nat → Infer β} (hf : ∀ a q, inv q → FaultsAt good (f a) q) :
    FaultsAt good (widthOf visit o >>= f) p := by
  refine FaultsAt.bind ?_ fun a q h => ?_
  · refine FaultsAt.bind (visits.faults o ho p hp) fun c q hq => ?_
    exact visits.known hp (visitAll_singleton_eq_ok.mpr hq) List.mem_cons_self ho
  · obtain ⟨c, hrun, -⟩ := widthOf_eq_ok.mp h
    exact hf a q (visits.keeps o p c q hp hrun)

theorem faultsAt_copyRule (visits : Visits good inv visit i) (ho : o ∈ i.operands) (hp : inv p) :
    FaultsAt good (copyRule visit v o) p :=
  faultsAt_widthOf visits ho hp fun _ _ _ => .raise v _

/-- **A rule fails as visits of its operands do**, or because it cannot be applied. -/
theorem faultsAt_rule (visits : Visits good inv visit i) (excused : Excused good k v i block)
    (hp : inv p) : FaultsAt good (rule visit k v i block) p := by
  by_cases harith : i.opcode.isArithmetic = true
  · rw [rule_of_isArithmetic harith]
    have harity := Opcode.arity_of_isArithmetic harith
    refine faultsAt_operand excused (by omega) fun l _ hl => ?_
    -- the width of the left operand is read before the right one is visited
    refine faultsAt_widthOf visits hl hp fun a q hq => ?_
    refine faultsAt_operand excused (by omega) fun r _ hr => ?_
    exact faultsAt_widthOf visits hr hq fun b _ _ => .raise v _
  · cases hop : i.opcode with
    | add | sub | mul | sdiv | udiv | ashr => simp [hop, Opcode.isArithmetic] at harith
    | icmp =>
        simp only [rule, hop]
        have harity : i.opcode.arity = 2 := by rw [hop]; rfl
        refine faultsAt_operand excused (by omega) fun l _ hl => ?_
        refine faultsAt_visit visits hl hp fun _ q hq => ?_
        refine faultsAt_operand excused (by omega) fun r _ hr => ?_
        exact faultsAt_visit visits hr hq fun _ _ _ => .raise v 1
    | getElementPtr =>
        simp only [rule, hop]
        have harity : i.opcode.arity = 1 := by rw [hop]; rfl
        refine faultsAt_operand excused (by omega) fun base hbase hmem => ?_
        -- the base is visited with the indices, and its width is asked for after all of them
        have hoperands := Instruction.operands_eq_of_elementPointer hop hbase
        refine FaultsAt.bind ?_ fun c q hq => ?_
        · exact faultsAt_visitAll inv (fun o ho => visits.faults o (hoperands ▸ ho)) visits.keeps hp
        · refine FaultsAt.bind (visits.known hp hq List.mem_cons_self hmem) fun _ _ _ => ?_
          refine FaultsAt.bind .get fun _ _ _ => FaultsAt.bind (.raise v _) fun _ _ _ => ?_
          exact FaultsAt.bind (.raise base _) fun _ _ _ => .pure _
    | load | trunc | zext =>
        simp only [rule, hop]
        have harity : i.opcode.arity = 1 := by rw [hop]; rfl
        exact faultsAt_operand excused (by omega) fun o _ ho => faultsAt_copyRule visits ho hp
    | store =>
        simp only [rule, hop]
        have harity : i.opcode.arity = 2 := by rw [hop]; rfl
        refine faultsAt_operand excused (by omega) fun stored _ hs => ?_
        refine faultsAt_widthOf visits hs hp fun a q hq => ?_
        refine faultsAt_operand excused (by omega) fun address _ ha => ?_
        refine faultsAt_visit visits ha hq fun _ _ _ => ?_
        refine FaultsAt.bind (.raise address a) fun _ _ _ => ?_
        exact FaultsAt.bind (.raise v a) fun _ _ _ => .pure _
    | ret =>
        simp only [rule, hop]
        cases ho : i.operand? 0 with
        | none => exact .pure false
        | some o =>
            exact faultsAt_copyRule visits (Instruction.mem_operands_of_operand? ho) hp
    | br =>
        simp only [rule, hop]
        exact .raise v 0
    | condBr =>
        simp only [rule, hop]
        have harity : i.opcode.arity = 1 := by rw [hop]; rfl
        refine faultsAt_operand excused (by omega) fun condition _ ho => ?_
        refine faultsAt_visit visits ho hp fun _ _ _ => ?_
        exact FaultsAt.bind (.raise v 0) fun _ _ _ => .pure _
    | switch =>
        have unsupported : i.opcode.isSupported = false := by rw [hop]; rfl
        simp only [rule, hop]
        refine FaultsAt.bind (.ofExcept excused.block) fun b q h => ?_
        have hb := (Run.ofExcept_eq_ok.mp h).1
        exact .reject (hop ▸ excused.terminator unsupported b hb)
    | phi | call | and | or | xor | shl | lshr | sext | select =>
        have unsupported : i.opcode.isSupported = false := by rw [hop]; rfl
        simp only [rule, hop]
        exact .reject (hop ▸ excused.opcode unsupported)

end

/-! ## Wherever inference stands -/

/-- All rejections are of the sort, except for want of passes. -/
def AllowsRejections (good : Fault → Prop) : Prop :=
  ∀ why, (∀ kernel passes, why ≠ .noFixpoint kernel passes) → good (.rejected why)

section

variable {k : Kernel} {v : ValueId} (allows : AllowsRejections good)
include allows

/-- Asking for a width fails with a rejection. -/
theorem faultsAre_width (v : ValueId) : FaultsAre good (width v) := fun p => by
  unfold width
  refine FaultsAt.bind .get fun p _ _ => .ofExcept fun fault h => ?_
  unfold Widths.width at h
  split at h
  · cases h
  · obtain rfl := Outcome.reject_eq_error.mp h
    exact allows _ nofun

/-- A rule fails as visits of its operands do, if rejections are let pass. -/
theorem faultsAre_rule {visit : ValueId → Infer Bool} {i : Instruction} {block : BlockId}
    (hv : ∀ o ∈ i.operands, FaultsAre good (visit o))
    (hb : ∀ fault, k.block block = .error fault → good fault) :
    FaultsAre good (rule visit k v i block) := by
  have visits : Visits good (fun _ => True) visit i := {
    faults := fun o ho p _ => hv o ho p
    keeps := fun _ _ _ _ _ _ => trivial
    known := fun _ _ _ _ => faultsAre_width allows _ _ }
  have excused : Excused good k v i block := {
    operand := fun _ _ => allows _ nofun
    opcode := fun _ => allows _ nofun
    terminator := fun _ _ _ => allows _ nofun
    block := hb }
  exact fun _ => faultsAt_rule visits excused trivial

theorem faultsAre_seedMissing (v : ValueId) (type : Ty) :
    FaultsAre good (seedMissing v type) := fun p => by
  unfold seedMissing
  refine FaultsAt.bind .get fun p _ _ => ?_
  split
  · exact .pure false
  · refine FaultsAt.bind (.ofExcept fun fault h => ?_) fun _ _ _ => .raise v _
    unfold naturalWidth at h
    split at h
    · cases h
    · obtain rfl := Outcome.reject_eq_error.mp h
      exact allows _ nofun

/-- **Handling a value fails as its rule does**, or because nothing has its number. -/
theorem faultsAre_process_of_rule (missing : k.value? v = none → good (.outOfRange v.index))
    (hrule : ∀ x i block, k.value? v = some x → x.kind = .instruction i block →
      FaultsAre good (rule (fun o => if o.index < v.index then process k o
        else throw (.outOfRange o.index)) k v i block)) :
    FaultsAre good (process k v) := by
  rw [process]
  split
  · next hx => exact fun _ => FaultsAt.throw (missing hx)
  · next x hx =>
    -- a value is handled once a pass; then it is seeded, or raised, or its rule is applied
    have visited : FaultsAre good (isVisited v) := fun _ =>
      FaultsAt.bind .get fun _ _ _ => .pure _
    refine visited.bind fun old => ?_
    split
    · exact fun _ => FaultsAt.pure false
    · refine FaultsAre.bind (fun _ => FaultsAt.modify _) fun _ => ?_
      split
      · exact faultsAre_seedMissing allows v x.type
      · exact faultsAre_seedMissing allows v x.type
      · exact fun _ => FaultsAt.raise v _
      · next i block hk => exact hrule x i block hx hk

end

/-- A pass fails as handling the instructions of the text does. -/
theorem faultsAre_pass_of_process {k : Kernel}
    (h : ∀ v ∈ k.instructions, FaultsAre good (process k v)) : FaultsAre good (pass k) :=
  FaultsAre.bind (fun _ => FaultsAt.modify _) fun _ _ =>
    faultsAt_visitAll (fun _ => True) (fun v hv q _ => h v hv q) (fun _ _ _ _ _ _ => trivial)
      trivial

/-- All rejections but want of passes are faults of the kernel. -/
theorem allowsRejections_ofKernel : AllowsRejections Fault.OfKernel := by
  intro why h
  cases why with
  | noFixpoint f n => exact h f n rfl
  | _ => trivial

/-- **Handling a value** gives a fault of the kernel, if any. -/
theorem faultsAre_process (k : Kernel) (v : ValueId) : FaultsAre Fault.OfKernel (process k v) := by
  have allows := allowsRejections_ofKernel
  refine faultsAre_process_of_rule allows (fun _ => trivial) fun x i block _ _ => ?_
  refine faultsAre_rule allows (fun o _ => ?_) fun fault h => ?_
  · -- an operand is older than its user, and is handled by the induction
    split
    · exact faultsAre_process k o
    · exact fun _ => FaultsAt.throw trivial
  · unfold Kernel.block at h
    split at h
    · cases h
    · cases h
      trivial
termination_by v.index

theorem faultsAre_pass (k : Kernel) : FaultsAre Fault.OfKernel (pass k) :=
  faultsAre_pass_of_process fun v _ => faultsAre_process k v

end Infer

/-! ## Seeds -/

namespace Kernel

variable {k : Kernel} {o : Overrides} {fault : Fault}

theorem ofKernel_value {v : ValueId} (h : k.value v = .error fault) : fault.OfKernel := by
  unfold value at h
  split at h
  · cases h
  · cases h
    trivial

theorem ofKernel_paramWidth {v : ValueId} (h : k.paramWidth o v = .error fault) :
    fault.OfKernel := by
  rcases Outcome.bind_eq_error.mp h with h | ⟨x, -, h⟩
  · exact ofKernel_value h
  · split at h
    · cases h
    · exact ofKernel_naturalWidth h

theorem ofKernel_globalWidth {v : ValueId} (h : k.globalWidth v = .error fault) :
    fault.OfKernel := by
  rcases Outcome.bind_eq_error.mp h with h | ⟨x, -, h⟩
  · exact ofKernel_value h
  · exact ofKernel_naturalWidth h

/-- Seeds fail for want of a value or of a natural width. -/
theorem ofKernel_seeds (h : k.seeds o = .error fault) : fault.OfKernel := by
  rcases Outcome.bind_eq_error.mp h with h | ⟨w, -, h⟩
  · obtain ⟨w, v, -, h⟩ := Outcome.exists_of_foldlM_eq_error h
    rcases Outcome.bind_eq_error.mp h with h | ⟨bits, -, h⟩
    · exact ofKernel_paramWidth h
    · cases h
  · obtain ⟨w, v, -, h⟩ := Outcome.exists_of_foldlM_eq_error h
    rcases Outcome.bind_eq_error.mp h with h | ⟨bits, -, h⟩
    · exact ofKernel_globalWidth h
    · cases h

end Kernel

end Datapath
