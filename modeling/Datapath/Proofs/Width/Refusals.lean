import Datapath.Proofs.Kernel.Consistent
import Datapath.Proofs.Width.Faults
import Datapath.Proofs.Width.Height

/-!
# What inference refuses

Inference gives up on an instruction that no rule covers, and on one that lacks an operand its rule
reads. `Kernel.Inapplicable` lists these faults, and there are no others: a width is never missing
when a rule asks for it, since whatever was handled has one by then.

The exception are returns without a value, which are handled and get no width. So all of this is
about kernels in which nothing has such a return as an operand (`Kernel.OperandsCarry`).
-/

namespace Datapath

/-! ## What rules need -/

/-- A rule that is ready covers its instruction, and the operands it asks for are there. -/
theorem Instruction.Ready.supported {w : ValueId → Option Nat} {i : Instruction} (h : i.Ready w) :
    i.opcode.isSupported = true ∧ i.opcode.arity ≤ i.operands.length := by
  have there {n : Nat} {o : ValueId} (ho : i.operand? n = some o) : n < i.operands.length :=
    (List.getElem?_eq_some_iff.mp ho).1
  cases hop : i.opcode with
  | add | sub | mul | sdiv | udiv | ashr =>
      simp only [Ready, hop] at h
      obtain ⟨-, r, hr, -⟩ := h
      exact ⟨rfl, there hr⟩
  | icmp | store =>
      simp only [Ready, hop] at h
      obtain ⟨-, r, hr⟩ := h
      exact ⟨rfl, there hr⟩
  | getElementPtr | load | trunc | zext =>
      simp only [Ready, hop] at h
      obtain ⟨o, ho, -⟩ := h
      exact ⟨rfl, there ho⟩
  | condBr =>
      simp only [Ready, hop] at h
      obtain ⟨o, ho⟩ := h
      exact ⟨rfl, there ho⟩
  | br | ret => exact ⟨rfl, Nat.zero_le _⟩
  | switch | phi | call | and | or | xor | shl | lshr | sext | select => simp [Ready, hop] at h

namespace Kernel

def Carries (k : Kernel) (v : ValueId) : Prop :=
  ∀ i, k.instruction? v = some i → i.opcode = .ret → i.operand? 0 ≠ none

def OperandsCarry (k : Kernel) : Prop :=
  ∀ v i o, k.instruction? v = some i → o ∈ i.operands → k.Carries o

instance decidableCarries (k : Kernel) (v : ValueId) : Decidable (k.Carries v) :=
  inferInstanceAs (Decidable (∀ i ∈ k.instruction? v, i.opcode = .ret → i.operand? 0 ≠ none))

instance decidableOperandsCarry (k : Kernel) : Decidable k.OperandsCarry :=
  decidable_of_iff (∀ v ∈ k.ids, ∀ i ∈ k.instruction? v, ∀ o ∈ i.operands, k.Carries o) <| by
    rw [← forall_instruction_iff (P := fun _ i => ∀ o ∈ i.operands, k.Carries o)]
    exact ⟨fun h v i o hi => h v i hi o, fun h v i hi o => h v i o hi⟩

/-- The faults of instructions to which no rule can be applied. -/
inductive Inapplicable (k : Kernel) : Fault → Prop
  | opcode {v : ValueId} {i : Instruction} (known : k.instruction? v = some i)
      (unsupported : i.opcode.isSupported = false) :
      Inapplicable k (.rejected (.unsupportedOpcode k.name v i.opcode))
  | terminator {v : ValueId} {i : Instruction} (block : String)
      (known : k.instruction? v = some i) (unsupported : i.opcode.isSupported = false) :
      Inapplicable k (.rejected (.unsupportedTerminator k.name block i.opcode))
  | operand {v : ValueId} {i : Instruction} {n : Nat} (known : k.instruction? v = some i)
      (reads : n < i.opcode.arity) (missing : i.operands.length ≤ n) :
      Inapplicable k (.rejected (.malformed (.missingOperand i.opcode v n)))

end Kernel

/-! ## What was handled has a width -/

namespace Handles

variable {k : Kernel} {vs : List ValueId} {p q : Progress} {c : Bool}

/-- Whatever came to count as handled has a width, unless it is a return without a value. -/
theorem isSome_of_visited (h : Handles k vs p c q) {u : ValueId} (hu : u ∈ q.visited)
    (carries : k.Carries u) : u ∈ p.visited ∨ (q.width? u).isSome := by
  have known {p q : Progress} (hpq : ∀ u, p.width? u ≤ q.width? u) (hu : (p.width? u).isSome) :
      (q.width? u).isSome := Width.isSome_of_le (hpq u) hu
  have raised (p : Progress) (v : ValueId) (bits : Nat) : ((p.raise v bits).width? v).isSome :=
    Width.isSome_of_le (p.le_raise_self v bits) rfl
  -- the rule is for `v` itself, or its operands have been handled before
  have finish {v : ValueId} {p s t : Progress} (hv : (t.width? v).isSome)
      (hst : ∀ u, s.width? u ≤ t.width? u) (hs : u ∈ (p.mark v).visited ∨ (s.width? u).isSome) :
      u ∈ p.visited ∨ (t.width? u).isSome := by
    rcases hs with hs | hs
    · rcases List.mem_cons.mp hs with rfl | hs
      · exact .inr hv
      · exact .inl hs
    · exact .inr (known hst hs)
  induction h with
  -- `finish` settles each rule, given what holds before the raises that the rule ends with
  | nil | visited => exact .inl hu
  | cons first rest ih ih' =>
      rcases ih' hu with hq | hr
      · exact (ih hq).imp id (known rest.le)
      · exact .inr hr
  | seeded _ _ _ has => exact finish has (fun _ => Width.le_refl _) (.inl hu)
  | natural | constant | jump => exact finish (raised _ _ _) (Progress.le_raise _ _ _) (.inl hu)
  | returnVoid hi _ opcode bare =>
      rcases List.mem_cons.mp hu with rfl | hu
      · exact absurd bare (carries _ hi opcode)
      · exact .inl hu
  | arithmetic _ _ _ _ _ _ _ h' _ ih ih' | comparison _ _ _ _ _ _ h' ih ih' =>
      refine finish (raised _ _ _) (Progress.le_raise _ _ _) ?_
      rcases ih' hu with hq | hs
      · exact (ih hq).imp id (known h'.le)
      · exact .inr hs
  | copy _ _ _ _ _ _ ih | branch _ _ _ _ _ ih =>
      exact finish (raised _ _ _) (Progress.le_raise _ _ _) (ih hu)
  | @elementPointer v base _ _ q s _ _ bits _ _ _ _ _ _ _ raise ih =>
      subst raise
      refine finish (s := q) ?_ (fun u => ?_) (ih hu)
      · exact Width.isSome_of_le ((q.raise v bits).le_raise base bits v) (raised q v bits)
      · exact Width.le_trans (q.le_raise v bits u) ((q.raise v bits).le_raise base bits u)
  | @store v _ address _ _ _ s _ _ _ a _ _ _ _ _ _ _ h' raise ih ih' =>
      subst raise
      refine finish (s := s) (raised (s.raise address a) v a) (fun u => ?_) ?_
      · exact Width.le_trans (s.le_raise address a u) ((s.raise address a).le_raise v a u)
      · rcases ih' hu with hq | hs
        · exact (ih hq).imp id (known h'.le)
        · exact .inr hs

end Handles

/-- Arguments and globals have widths, and so has whatever was handled below `n`. Values from `n` on
may still be in the course of being handled. -/
structure Progress.Settled (k : Kernel) (n : Nat) (p : Progress) : Prop where
  bases : k.BasesKnown p.width?
  known : ∀ u ∈ p.visited, u.index < n → k.Carries u → (p.width? u).isSome

namespace Progress.Settled

variable {k : Kernel} {n m : Nat} {p q : Progress} {v : ValueId} {vs : List ValueId} {c : Bool}

theorem mono (h : p.Settled k n) (hm : m ≤ n) : p.Settled k m where
  bases := h.bases
  known u hu hlt := h.known u hu (by omega)

/-- The value that is about to be handled may lack a width for now. -/
theorem mark (h : p.Settled k v.index) : (p.mark v).Settled k v.index where
  bases := h.bases
  known u hu hlt := by
    rcases List.mem_cons.mp hu with rfl | hu
    · omega
    · exact h.known u hu hlt

/-- Handling settles whatever it handles. -/
theorem handle (hp : p.Settled k n) (h : Handles k vs p c q) : q.Settled k n where
  bases := hp.bases.mono h.le
  known u hu hlt carries := by
    rcases h.isSome_of_visited hu carries with hu | hu
    · exact Width.isSome_of_le (h.le u) (hp.known u hu hlt carries)
    · exact hu

end Progress.Settled

/-! ## Handling and passes -/

namespace Infer

variable {k : Kernel} {v : ValueId} {i : Instruction}

/-- Where the instruction stands in a block of the kernel, its rule fails on it only if it cannot be
applied. -/
theorem excused_inapplicable (hi : k.instruction? v = some i) {block : BlockId} {b : Block}
    (there : k.blocks[block.index]? = some b) : Excused k.Inapplicable k v i block where
  operand := .operand hi
  opcode := .opcode hi
  terminator unsupported _ _ := .terminator _ hi unsupported
  block fault h := by
    -- the block is there, so asking for it does not fail
    unfold Kernel.block at h
    rw [there] at h
    cases h

/-- Operands of a settled record's instruction have widths once they were visited. -/
theorem visits_settled (wf : k.WellFormed) (carry : k.OperandsCarry)
    (hi : k.instruction? v = some i) {visit : ValueId → Infer Bool}
    (faults : ∀ o ∈ i.operands, ∀ p, p.Settled k v.index → FaultsAt k.Inapplicable (visit o) p)
    (runs : ∀ {o p c q}, visit o p = .ok c q → Handles k [o] p c q) :
    Visits k.Inapplicable (Progress.Settled k v.index) visit i where
  faults := faults
  keeps _ _ _ _ hp h := hp.handle (runs h)
  known hp h hos ho := by
    have hrun := Handles.of_visitAll runs h
    have hhas := (hp.handle hrun).known _ (hrun.mem_visited _ hos) (wf.operand_lt hi ho)
      (carry v i _ hi ho)
    obtain ⟨bits, hbits⟩ := Option.isSome_iff_exists.mp hhas
    exact .of_ok (width_eq_ok.mpr ⟨hbits, rfl⟩)

/-- **Handling a value** fails only on an instruction that no rule can be applied to. -/
theorem faultsAt_process (wf : k.WellFormed) (carry : k.OperandsCarry) {v : ValueId}
    (hv : v.index < k.size) {p : Progress} (hp : p.Settled k v.index) :
    FaultsAt k.Inapplicable (process k v) p := by
  obtain ⟨x, hx⟩ := Option.isSome_iff_exists.mp ((Kernel.value?_isSome k v).mpr hv)
  intro fault q h
  by_cases old : v ∈ p.visited
  · rw [process_visited hx old] at h
    cases h
  · rw [process_new hx old] at h
    -- arguments and globals have widths, so those of their types are not asked for
    have seeded (base : x.isBase = true) (h : seedMissing v x.type (p.mark v) = .error fault q) :
        k.Inapplicable fault := by
      have hhas := hp.bases v x hx base
      have hok : seedMissing v x.type (p.mark v) = .ok false (p.mark v) :=
        seedMissing_eq_ok.mpr (.inl ⟨hhas, rfl, rfl⟩)
      cases hok.symm.trans h
    cases hk : x.kind with
    | argument n =>
        rw [hk] at h
        exact seeded (Handles.isBase_of_kind (.inl hk)) h
    | global =>
        rw [hk] at h
        exact seeded (Handles.isBase_of_kind (n := 0) (.inr hk)) h
    | constant c =>
        rw [hk] at h
        cases h
    | instruction i block =>
        rw [hk] at h
        have hi : k.instruction? v = some i := by
          rw [Kernel.instruction?_of_value? hx, Value.instruction?, hk]
        obtain ⟨b, hb, -⟩ := wf.placed hx hk
        refine faultsAt_rule (visits_settled wf carry hi (fun o ho q hq => ?_)
          fun {o p c q} h => ?_) (excused_inapplicable hi hb) hp.mark fault q h
        · have hlt := wf.operand_lt hi ho
          rw [if_pos hlt]
          exact faultsAt_process wf carry (wf.operand_lt_size hi ho) (hq.mono (by omega))
        · split at h
          · exact Handles.of_process h
          · exact absurd h Run.throw_eq_ok
termination_by v.index

/-- A pass fails as handling the instructions of the text does, each of which can be relied on to be
there. -/
theorem faultsAt_pass (wf : k.WellFormed) (carry : k.OperandsCarry) {p : Progress}
    (hp : p.Valid k) : FaultsAt k.Inapplicable (pass k) p := by
  intro fault q h
  have hbegin : (p.begin).Settled k k.size := ⟨hp.bases, nofun⟩
  refine faultsAt_visitAll (Progress.Settled k k.size) (fun v hv q hq => ?_)
    (fun o q c s hq h => hq.handle (Handles.of_process h)) hbegin fault q h
  obtain ⟨i, hi⟩ := wf.mem_instructions.mp hv
  have hlt := Kernel.instruction?_lt hi
  exact faultsAt_process wf carry hlt (hq.mono (by omega))

end Infer

/-! ## Inference -/

namespace Kernel

variable {k : Kernel}

/-- **From seeds, inference fails only on an instruction that no rule can be applied to.** -/
theorem inapplicable_of_run (wf : k.WellFormed) (carry : k.OperandsCarry) {o : Overrides}
    {s : Widths} (hs : k.seeds o = .ok s) {fault : Fault}
    (h : k.run (k.passLimit s none) { widths := s } = .error fault) : k.Inapplicable fault := by
  have step (p q : Progress) (hp : p.Valid k) (hpass : Infer.pass k p = .ok true q) : q.Valid k :=
    hp.begin.handle (Infer.handles_of_pass hpass)
  rcases settle_eq_error step (valid_seeds wf hs) h with ⟨q, hq⟩ | ⟨r, q, hr, hpass⟩
  · -- as many passes are allowed as could change a width, and one more
    have hle := hq.le_of_seeds wf hs
    change k.size * (k.ceiling s + 1) + 1 ≤ _ at hle
    omega
  · -- otherwise a pass failed, and the widths before it were valid
    exact Infer.faultsAt_pass wf carry hr fault q hpass

/-- What settled widths cover: every rule can be applied to them, and there is one for each
argument, each global, each instruction and each operand that a rule goes through, returns without a
value apart. Nothing but values of the kernel has one. -/
structure Covered (k : Kernel) (w : Widths) : Prop where
  ready : ∀ {v i}, k.instruction? v = some i → i.Ready w.width?
  bases : k.BasesKnown w.width?
  instructions : ∀ {v i}, k.instruction? v = some i → k.Carries v → (w.width? v).isSome
  operands : ∀ {v i o}, k.instruction? v = some i → o ∈ i.handled → k.Carries o →
    (w.width? o).isSome
  inRange : ∀ {u}, (w.width? u).isSome → u.index < k.size

/-- **Settled widths cover the kernel**: the last pass applied every rule. -/
theorem covered_of_run (wf : k.WellFormed) {o : Overrides} {s m : Widths}
    (hs : k.seeds o = .ok s) {limit : Nat} (h : k.run limit { widths := s } = .ok m) :
    k.Covered m := by
  have step (p q : Progress) (hp : p.Valid k) (hpass : Infer.pass k p = .ok true q) : q.Valid k :=
    hp.begin.handle (Infer.handles_of_pass hpass)
  obtain ⟨r, q, hr, hpass, rfl⟩ := settle_eq_ok step (valid_seeds wf hs) h
  have hrun := Infer.handles_of_pass hpass
  have hbegin : (r.begin).Settled k k.size := ⟨hr.bases, nofun⟩
  have settled := hbegin.handle hrun
  have visited {v : ValueId} {i : Instruction} (hi : k.instruction? v = some i) :
      v ∈ q.visited := hrun.mem_visited v (wf.mem_instructions.mpr ⟨i, hi⟩)
  have applied {v : ValueId} {i : Instruction} (hi : k.instruction? v = some i) : q.Applied i :=
    hrun.applied hi nofun (visited hi)
  exact {
    ready := fun hi => (applied hi).ready
    bases := settled.bases
    instructions := fun hi => settled.known _ (visited hi) (instruction?_lt hi)
    operands := fun hi ho => settled.known _ ((applied hi).handled _ ho)
      (wf.operand_lt_size hi (Instruction.mem_operands_of_mem_handled ho))
    inRange := (hr.begin.handle hrun).inRange _ }

end Kernel

end Datapath
