import Datapath.Analysis
import Datapath.Proofs.Graph.Refusals
import Datapath.Proofs.Width.Seeds

/-!
# What is accepted

An analysis has two stages that may refuse a kernel, and inference starts from seeds that may be
missing. `Kernel.Refused` puts together the faults of all three, and `Kernel.Acceptable` says
without faults what a kernel needs so that there is none.

The two stages fit: whatever the second looks up was recorded by the first. So a fault tells
something about the kernel, and never that a width or a node is missing or that inference did not
end (`Rejection.isInternal`).
-/

namespace Datapath

/-- The rejections that blame the analysis: something was asked for before it was recorded, or
inference was cut short. -/
def Rejection.isInternal : Rejection → Bool
  | missingWidth _ | missingNode _ | noFixpoint .. => true
  | _ => false

namespace Kernel

variable {k : Kernel} {overrides : Overrides} {fault : Fault}

/-! ## Seeds -/

/-- The faults of parameters and globals without a width to start from. -/
inductive Unseeded (k : Kernel) (overrides : Overrides) : Fault → Prop
  | param {p : ValueId} {x : Value} (param : p ∈ k.params) (known : k.value? p = some x)
      (unstated : overrides.bits? (k.nameOf p) = none) (unnatural : x.type.naturalWidth? = none) :
      Unseeded k overrides (.rejected (.unsupportedType p x.type))
  | global {g : ValueId} {x : Value} (global : g ∈ k.globals) (known : k.value? g = some x)
      (unnatural : x.type.naturalWidth? = none) :
      Unseeded k overrides (.rejected (.unsupportedType g x.type))

/-- Only a type without an integer at its bottom gives no width. -/
theorem naturalWidth_eq_error {v : ValueId} {type : Ty} :
    naturalWidth v type = .error fault ↔
      type.naturalWidth? = none ∧ fault = .rejected (.unsupportedType v type) := by
  unfold naturalWidth
  cases type.naturalWidth? with
  | some bits => simp
  | none =>
      rw [Outcome.reject_eq_error]
      simp [eq_comm]

/-- A parameter has no width to start from if none is stated and its type gives none. -/
theorem paramWidth_eq_error {p : ValueId} {x : Value} (hx : k.value? p = some x) :
    k.paramWidth overrides p = .error fault ↔ overrides.bits? (k.nameOf p) = none ∧
      x.type.naturalWidth? = none ∧ fault = .rejected (.unsupportedType p x.type) := by
  rw [paramWidth, value_eq_ok.mpr hx]
  simp only [bind, Except.bind]
  cases overrides.bits? (k.nameOf p) with
  | some bits => simp [pure, Except.pure]
  | none => simp [naturalWidth_eq_error]

/-- For a global only its type counts. -/
theorem globalWidth_eq_error {g : ValueId} {x : Value} (hx : k.value? g = some x) :
    k.globalWidth g = .error fault ↔
      x.type.naturalWidth? = none ∧ fault = .rejected (.unsupportedType g x.type) := by
  rw [globalWidth, value_eq_ok.mpr hx]
  exact naturalWidth_eq_error

/-- **Seeds are missing for want of a width to start from.** -/
theorem unseeded_of_seeds (wf : k.WellFormed) (h : k.seeds overrides = .error fault) :
    k.Unseeded overrides fault := by
  rcases Outcome.bind_eq_error.mp h with h | ⟨w, -, h⟩
  · -- a parameter has none
    obtain ⟨w, p, hp, h⟩ := Outcome.exists_of_foldlM_eq_error h
    obtain ⟨x, hx, -⟩ := wf.mem_params.mp hp
    rcases Outcome.bind_eq_error.mp h with h | ⟨bits, -, h⟩
    · obtain ⟨unstated, unnatural, rfl⟩ := (paramWidth_eq_error hx).mp h
      exact .param hp hx unstated unnatural
    · cases h
  · -- a global has none
    obtain ⟨w, g, hg, h⟩ := Outcome.exists_of_foldlM_eq_error h
    obtain ⟨x, hx, -⟩ := wf.mem_globals.mp hg
    rcases Outcome.bind_eq_error.mp h with h | ⟨bits, -, h⟩
    · obtain ⟨unnatural, rfl⟩ := (globalWidth_eq_error hx).mp h
      exact .global hg hx unnatural
    · cases h

/-- If there are seeds, no parameter and no global lacks one. -/
theorem not_unseeded_of_seeds {s : Widths} (h : k.seeds overrides = .ok s) :
    ¬ k.Unseeded overrides fault := by
  obtain ⟨params, globals⟩ := exists_widths_of_seeds h
  intro hfault
  cases hfault with
  | param hp hx unstated unnatural =>
      obtain ⟨bits, hbits⟩ := params _ hp
      cases ((paramWidth_eq_error hx).mpr ⟨unstated, unnatural, rfl⟩).symm.trans hbits
  | global hg hx unnatural =>
      obtain ⟨bits, hbits⟩ := globals _ hg
      cases ((globalWidth_eq_error hx).mpr ⟨unnatural, rfl⟩).symm.trans hbits

/-! ## Refusal -/

/-- The faults of a kernel that is not analysed. -/
inductive Refused (k : Kernel) (overrides : Overrides) : Fault → Prop
  | unseeded {fault : Fault} (unseeded : k.Unseeded overrides fault) : Refused k overrides fault
  | inapplicable {fault : Fault} (inapplicable : k.Inapplicable fault) : Refused k overrides fault
  | undrawable {fault : Fault} (undrawable : k.Undrawable fault) : Refused k overrides fault

/-- A rule that can be applied is not refused. -/
theorem Covered.not_inapplicable {w : Widths} (cov : k.Covered w) : ¬ k.Inapplicable fault := by
  intro hfault
  cases hfault with
  | opcode known unsupported | terminator _ known unsupported =>
      rw [(cov.ready known).supported.1] at unsupported
      cases unsupported
  | operand known reads missing =>
      have there := (cov.ready known).supported.2
      omega

/-- **A fault of an analysis is one of those listed.** -/
theorem refused_of_analyze (h : k.Consistent) (binary : k.Binary) (carry : k.OperandsCarry)
    (hfault : k.analyze overrides = .error fault) : k.Refused overrides fault := by
  have wf := h.toWellFormed
  rcases Outcome.bind_eq_error.mp hfault with hfault | ⟨widths, hwidths, hfault⟩
  · -- inference fails: at the seeds or in a pass
    rcases Outcome.bind_eq_error.mp hfault with hfault | ⟨seeds, hseeds, hfault⟩
    · exact .unseeded (unseeded_of_seeds wf hfault)
    · exact .inapplicable (inapplicable_of_run wf carry hseeds hfault)
  · -- inference is done, so construction fails
    obtain ⟨seeds, hseeds, hrun⟩ := Outcome.bind_eq_ok.mp hwidths
    rcases Outcome.bind_eq_error.mp hfault with hfault | ⟨graph, -, hfault⟩
    · exact .undrawable
        (Graph.undrawable_of_ofKernel h carry binary (covered_of_run wf hseeds hrun) hfault)
    · cases hfault

/-- **A kernel that was analysed has none of them.** -/
theorem not_refused_of_analyze (h : k.Consistent) {a : Analysis}
    (ha : k.analyze overrides = .ok a) : ¬ k.Refused overrides fault := by
  obtain ⟨widths, hwidths, ha⟩ := Outcome.bind_eq_ok.mp ha
  obtain ⟨seeds, hseeds, hrun⟩ := Outcome.bind_eq_ok.mp hwidths
  obtain ⟨graph, hgraph, -⟩ := Outcome.bind_eq_ok.mp ha
  intro hfault
  cases hfault with
  | unseeded hfault => exact not_unseeded_of_seeds hseeds hfault
  | inapplicable hfault =>
      exact (covered_of_run h.toWellFormed hseeds hrun).not_inapplicable hfault
  | undrawable hfault => exact Graph.not_undrawable_of_ofKernel h hgraph hfault

/-- No refusal blames the analysis. -/
theorem Refused.isInternal_eq_false (h : k.Consistent) (hfault : k.Refused overrides fault) :
    ∃ why, fault = .rejected why ∧ why.isInternal = false := by
  cases hfault with
  | unseeded hfault => cases hfault <;> exact ⟨_, rfl, rfl⟩
  | inapplicable hfault => cases hfault <;> exact ⟨_, rfl, rfl⟩
  | undrawable hfault =>
      have wf := h.toWellFormed
      cases hfault with
      | successor dangling =>
          cases dangling
          exact ⟨_, rfl, rfl⟩
      | address goes untraceable =>
          obtain ⟨i, hi, -, ha, -⟩ := goes
          have hlt := wf.operand_lt_size hi (Instruction.mem_operands_of_address? ha)
          -- the trace to the base pointer breaks off, or an index cannot be flattened
          cases untraceable with
          | base fails =>
              obtain ⟨u, rfl⟩ := untraceable_of_basePointer wf hlt fails
              exact ⟨_, rfl, rfl⟩
          | index known index fails =>
              have hmem := Instruction.mem_operands_of_mem_indices index
              have hlt' := Nat.lt_trans (wf.underlying_lt known hmem) hlt
              obtain ⟨u, o, rfl⟩ := unsupported_of_flatten wf hlt' fails
              exact ⟨_, rfl, rfl⟩

/-! ## Acceptance -/

structure Acceptable (k : Kernel) (overrides : Overrides) : Prop where
  params : ∀ {p x}, p ∈ k.params → k.value? p = some x →
    (overrides.bits? (k.nameOf p)).isSome ∨ x.type.naturalWidth?.isSome
  globals : ∀ {g x}, g ∈ k.globals → k.value? g = some x → x.type.naturalWidth?.isSome
  supported : ∀ {v i}, k.instruction? v = some i → i.opcode.isSupported = true
  operands : ∀ {v i}, k.instruction? v = some i → i.opcode.arity ≤ i.operands.length
  successors : ∀ {v i b}, k.instruction? v = some i → i.opcode = .condBr →
    b ∈ i.successors.take 2 → b.index < k.blocks.size
  traceable : ∀ {v a}, k.GoesTo v a → k.Traceable a

/-- A kernel that has what it needs is not refused. -/
theorem Acceptable.not_refused (h : k.Acceptable overrides) : ¬ k.Refused overrides fault := by
  intro hfault
  cases hfault with
  | unseeded hfault =>
      cases hfault with
      | param hp hx unstated unnatural => simpa [unstated, unnatural] using h.params hp hx
      | global hg hx unnatural => simpa [unnatural] using h.globals hg hx
  | inapplicable hfault =>
      cases hfault with
      | opcode known unsupported | terminator _ known unsupported =>
          simpa [unsupported] using h.supported known
      | operand known reads missing =>
          have there := h.operands known
          omega
  | undrawable hfault =>
      cases hfault with
      | successor dangling =>
          cases dangling with
          | successor known branches leads missing =>
              exact Nat.not_lt_of_le missing (h.successors known branches leads)
      | address goes untraceable => exact traceable_iff.mp (h.traceable goes) fault untraceable

/-- Whatever a kernel lacks, it is refused for it. -/
theorem acceptable_of_not_refused (h : ∀ fault, ¬ k.Refused overrides fault) :
    k.Acceptable overrides where
  params hp hx := by
    by_contra hnone
    rw [not_or, Option.not_isSome_iff_eq_none, Option.not_isSome_iff_eq_none] at hnone
    exact h _ (.unseeded (.param hp hx hnone.1 hnone.2))
  globals hg hx := by
    by_contra hnone
    rw [Option.not_isSome_iff_eq_none] at hnone
    exact h _ (.unseeded (.global hg hx hnone))
  supported hi := by
    by_contra hnot
    exact h _ (.inapplicable (.opcode hi (Bool.eq_false_iff.mpr hnot)))
  operands hi := by
    by_contra hlt
    exact h _ (.inapplicable (.operand hi (Nat.lt_of_not_le hlt) (Nat.le_refl _)))
  successors hi hop hb := by
    by_contra hge
    exact h _ (.undrawable (.successor (.successor hi hop hb (Nat.le_of_not_lt hge))))
  traceable goes := by
    refine traceable_iff.mpr fun fault untraceable => ?_
    exact h fault (.undrawable (.address goes untraceable))

/-- **What the pipeline accepts** is exactly what has all it needs, and whatever it refuses, it does
not blame itself. -/
theorem analyze_isOk_iff {name : String} {script : List Step}
    (built : ofScript? name script = some k) (binary : k.Binary) (carry : k.OperandsCarry)
    (overrides : Overrides) :
    ((∃ a, k.analyze overrides = .ok a) ↔ k.Acceptable overrides) ∧
      ∀ fault, k.analyze overrides = .error fault →
        ∃ why, fault = .rejected why ∧ why.isInternal = false := by
  have h := ofScript?_consistent built
  refine ⟨⟨?_, fun acceptable => ?_⟩, fun fault hfault => ?_⟩
  · rintro ⟨a, ha⟩
    exact acceptable_of_not_refused fun fault => not_refused_of_analyze h ha
  · rw [Outcome.exists_eq_ok_iff]
    intro fault hfault
    exact acceptable.not_refused (refused_of_analyze h binary carry hfault)
  · exact (refused_of_analyze h binary carry hfault).isInternal_eq_false h

/-- An element is stored back if its index is small: a guarded block, and an address whose index is
a sum. -/
def tallyScript : List Step :=
  [.param "p" (.pointer (.int 8)), .param "i" (.int 4), .constant 1 4, .block "entry",
    .block "body", .block "exit", .moveTo ⟨0⟩, .compare .slt ⟨1⟩ ⟨2⟩ "small",
    .branchIf ⟨3⟩ ⟨1⟩ ⟨2⟩, .moveTo ⟨1⟩, .binary .add ⟨1⟩ ⟨2⟩ "next",
    .elementPointer ⟨0⟩ [⟨5⟩] "cell", .load ⟨6⟩ "x", .store ⟨7⟩ ⟨6⟩, .branch ⟨2⟩, .moveTo ⟨2⟩,
    .ret none]

def tally : Kernel := (Kernel.ofScript? "tally" tallyScript).getD (.empty "tally")

/-- It is analysed, so it is acceptable. -/
theorem analyze_isOk_iff_tally :
    Kernel.ofScript? "tally" tallyScript = some tally ∧ tally.Binary ∧ tally.OperandsCarry ∧
      (∃ a, tally.analyze .empty = .ok a) ∧ tally.Acceptable .empty := by
  have built : Kernel.ofScript? "tally" tallyScript = some tally := rfl
  have binary : tally.Binary := by decide +kernel
  have carry : tally.OperandsCarry := by decide +kernel
  have isOk : (tally.analyze .empty).toOption.isSome = true := by decide +kernel
  have analyzed : ∃ a, tally.analyze .empty = .ok a := by
    obtain ⟨a, ha⟩ := Option.isSome_iff_exists.mp isOk
    exact ⟨a, Outcome.toOption_eq_some.mp ha⟩
  obtain ⟨accepted, -⟩ := analyze_isOk_iff built binary carry .empty
  exact ⟨built, binary, carry, analyzed, accepted.mp analyzed⟩

end Kernel

end Datapath
