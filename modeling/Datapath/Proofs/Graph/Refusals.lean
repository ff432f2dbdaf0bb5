import Datapath.Proofs.Address.Accessing
import Datapath.Proofs.Address.Answers
import Datapath.Proofs.Address.Flattening
import Datapath.Proofs.Graph.Contents
import Datapath.Proofs.Graph.Guarding
import Datapath.Proofs.Graph.Recorded
import Datapath.Proofs.Width.Refusals

/-!
# What construction refuses

Once widths have settled, there are two reasons left for which a kernel has no graph: a conditional
branch leads to a block that is not there, or the chain of an address below a load or a store cannot
be recorded. `Kernel.Undrawable` lists the faults that this gives.

* `undrawable_of_ofKernel`: every fault of construction is one of these. Whatever is asked for is a
  value of the kernel with a width, so each lookup succeeds.
* `not_undrawable_of_ofKernel`: where there is a graph, neither reason is given. The sweep meets
  every branch and every address, also those whose chain has been recorded before.
-/

namespace Datapath

/-! ## Reasons -/

namespace Kernel

def GoesTo (k : Kernel) (v a : ValueId) : Prop :=
  ∃ i, k.instruction? v = some i ∧ i.opcode.isAccess = true ∧ i.address? = some a ∧
    k.opcode? a = some .getElementPtr

/-- A chain can be recorded for the address: it leads to a base pointer, and all its indices can be
flattened. -/
structure Traceable (k : Kernel) (a : ValueId) : Prop where
  base : ∃ b, k.basePointer a = .ok b
  indices : ∀ {i x}, k.instruction? a = some i → x ∈ i.indices → ∃ os, k.operations x = .ok os

/-- The faults of an address for which no chain can be recorded. -/
inductive Untraceable (k : Kernel) (a : ValueId) : Fault → Prop
  | base {fault : Fault} (fails : k.basePointer a = .error fault) : Untraceable k a fault
  | index {i : Instruction} {x : ValueId} {fault : Fault} (known : k.instruction? a = some i)
      (index : x ∈ i.indices) (fails : k.operations x = .error fault) : Untraceable k a fault

/-- The faults of a kernel whose widths have settled and of which no graph can be made. -/
inductive Undrawable (k : Kernel) : Fault → Prop
  | successor {fault : Fault} (dangling : k.Dangling fault) : Undrawable k fault
  | address {v a : ValueId} {fault : Fault} (goes : k.GoesTo v a)
      (untraceable : k.Untraceable a fault) : Undrawable k fault

def Binary (k : Kernel) : Prop :=
  ∀ v i, k.instruction? v = some i → i.opcode.isComputation = true → i.operands.length = 2

instance decidableBinary (k : Kernel) : Decidable k.Binary :=
  decidable_of_iff _ forall_instruction_iff.symm

variable {k : Kernel} {w : Widths} {v a o : ValueId} {i : Instruction} {fault : Fault}

/-- An address can be traced if no fault stands against it. -/
theorem traceable_iff : k.Traceable a ↔ ∀ fault, ¬ k.Untraceable a fault := by
  constructor
  · intro h fault hfault
    cases hfault with
    | base fails => exact Outcome.exists_eq_ok_iff.mp h.base fault fails
    | index known index fails =>
        exact Outcome.exists_eq_ok_iff.mp (h.indices known index) fault fails
  · intro h
    refine ⟨?_, fun known index => ?_⟩
    · exact Outcome.exists_eq_ok_iff.mpr fun fault fails => h fault (.base fails)
    · exact Outcome.exists_eq_ok_iff.mpr fun fault fails => h fault (.index known index fails)

/-! ## What has a width -/

/-- The rules of arithmetic and comparisons go through their two operands. -/
theorem handled_of_isComputation (computes : i.opcode.isComputation = true) :
    i.handled = i.operands.take 2 := by
  rcases Bool.or_eq_true_iff.mp computes with harith | hcmp
  · exact Instruction.handled_of_isArithmetic harith
  · simp only [Instruction.handled, of_decide_eq_true hcmp]

/-- Loads and stores that inference lets pass have addresses. -/
theorem exists_address_of_ready {w : ValueId → Option Nat} (accesses : i.opcode.isAccess = true)
    (ready : i.Ready w) : ∃ a, i.address? = some a := by
  rcases Opcode.isAccess_iff.mp accesses with hop | hop
  · simp only [Instruction.Ready, hop] at ready
    obtain ⟨a, ha, -⟩ := ready
    exact ⟨a, by simpa [Instruction.address?, hop] using ha⟩
  · simp only [Instruction.Ready, hop] at ready
    obtain ⟨-, a, ha⟩ := ready
    exact ⟨a, by simpa [Instruction.address?, hop] using ha⟩

/-- The rule of a store goes through what is stored. -/
theorem mem_handled_of_stored? (h : i.stored? = some o) : o ∈ i.handled := by
  unfold Instruction.stored? at h
  split at h
  · next hop =>
    simp only [Instruction.handled, hop]
    exact Instruction.mem_take_of_operand? h Nat.two_pos
  · cases h

/-- Rules go through what a cast or a branch is looked through to. -/
theorem underlying_eq_or_mem_handled (k : Kernel) (v : ValueId) :
    k.underlying v = v ∨ ∃ i, k.instruction? v = some i ∧ k.underlying v ∈ i.handled := by
  rcases k.underlying_cases v with h | ⟨i, hi, hfirst, hop⟩
  · exact .inl h
  · have hhandled : i.handled = i.operands.take 1 := by
      cases ho : i.opcode <;> simp_all [Instruction.handled, Opcode.isCast]
    exact .inr ⟨i, hi, hhandled ▸ Instruction.mem_take_of_operand? hfirst Nat.one_pos⟩

namespace Covered

variable (cov : k.Covered w) (carry : k.OperandsCarry)
include cov carry

theorem isSome_operand (hi : k.instruction? v = some i) (ho : o ∈ i.handled) :
    (w.width? o).isSome :=
  cov.operands hi ho (carry v i o hi (Instruction.mem_operands_of_mem_handled ho))

theorem isSome_underlying (hi : k.instruction? v = some i) (ho : o ∈ i.handled) :
    (w.width? (k.underlying o)).isSome := by
  rcases k.underlying_eq_or_mem_handled o with h | ⟨j, hj, hmem⟩
  · rw [h]
    exact cov.isSome_operand carry hi ho
  · exact cov.isSome_operand carry hj hmem

end Covered

/-- Only a return can be left without a width. -/
theorem Covered.isSome_of_opcode (cov : k.Covered w) (hi : k.instruction? v = some i)
    (hop : i.opcode ≠ .ret) : (w.width? v).isSome := by
  refine cov.instructions hi fun j hj hret => absurd hret ?_
  obtain rfl := Option.some.inj (hi.symm.trans hj)
  exact hop

/-- Every value of the kernel has a kind. -/
theorem exists_kind (h : k.Consistent) (hv : v.index < k.size) :
    ∃ kind, NodeKind.ofValue k v = .ok kind := by
  obtain ⟨x, hx⟩ := exists_value? hv
  rw [NodeKind.ofValue, value_eq_ok.mpr hx]
  cases hk : x.kind with
  | argument n =>
      simp only [bind, Except.bind, hk]
      split
      · -- the kind of a pointer parameter is read off what is accessed through it
        obtain ⟨access, haccess, -⟩ := exists_access h hv
        rw [haccess]
        exact ⟨_, rfl⟩
      · exact ⟨_, rfl⟩
  | instruction i b =>
      simp only [bind, Except.bind, hk]
      split <;> exact ⟨_, rfl⟩
  | constant | global =>
      simp only [bind, Except.bind, hk]
      exact ⟨_, rfl⟩

end Kernel

/-! ## Nodes and edges -/

namespace Graph

variable {s : Setting} {bucket : Nat} {g g' : Graph} {v o a : ValueId} {n : NodeId}
  {i : Instruction} {fault : Fault}

/-- Construction can give `v` a node: it is a value of the kernel, and it has a width. -/
def Setting.Offers (s : Setting) (v : ValueId) : Prop :=
  v.index < s.kernel.size ∧ (s.widths.width? v).isSome

/-- What every visit can rely on: the records of the kernel agree, and there are widths for the
conditions of guards and for the operations of chains. -/
structure Setting.Stocked (s : Setting) : Prop where
  consistent : s.kernel.Consistent
  condition : ∀ {bucket guard}, s.guards.find? bucket = some guard → s.Offers guard.condition
  operation : ∀ {v i}, s.kernel.instruction? v = some i → i.opcode.isArithmetic = true → s.Offers v

section

variable (hs : s.Stocked)
include hs

/-- **A value with a width is given a node.** -/
theorem exists_request (hv : s.Offers v) (bucket : Nat) (g : Graph) :
    ∃ r, request s bucket g v = .ok r := by
  obtain ⟨bits, hbits⟩ := Option.isSome_iff_exists.mp hv.2
  obtain ⟨kind, hkind⟩ := Kernel.exists_kind hs.consistent hv.1
  rw [request, Widths.width_eq_ok.mpr hbits]
  cases hn : g.nodeId? v with
  -- it has a node already
  | some n => exact ⟨_, rfl⟩
  | none => exact ⟨_, by rw [hkind]; rfl⟩

/-- Where all operands have widths, all can be linked. -/
theorem exists_links {os : List ValueId} (offers : ∀ o ∈ os, s.Offers o) (bucket : Nat) (n : NodeId)
    (g : Graph) : ∃ g', os.foldlM (link s bucket n) g = .ok g' := by
  apply Outcome.exists_foldlM_eq_ok_of_forall
  intro o ho g
  obtain ⟨r, hr⟩ := exists_request hs (offers o ho) bucket g
  exact ⟨_, by rw [link, hr]; rfl⟩

/-- The condition of a guard can be given a node. -/
theorem exists_applyGuard (bucket : Nat) (n : NodeId) (g : Graph) :
    ∃ g', applyGuard s bucket n g = .ok g' := by
  unfold applyGuard
  cases hg : s.guards.find? bucket with
  | none => exact ⟨g, rfl⟩
  | some guard =>
      obtain ⟨r, hr⟩ := exists_request hs (hs.condition hg) bucket g
      exact ⟨_, by simp only [hr]; rfl⟩

/-! ## Refusals -/

/-- Recording a chain fails if the address cannot be traced. -/
theorem untraceable_of_traceChain (h : traceChain s a g = .error fault) :
    s.kernel.Untraceable a fault := by
  unfold traceChain at h
  split at h
  · cases h
  · rcases Outcome.bind_eq_error.mp h with h | ⟨base, -, h⟩
    · exact .base h
    · rcases Outcome.bind_eq_error.mp h with h | ⟨parts, hparts, h⟩
      · obtain ⟨x, hx, h⟩ := Outcome.exists_of_mapM_eq_error h
        cases hi : s.kernel.instruction? a with
        | none => simp [hi] at hx
        | some i => exact .index hi (by simpa [hi] using hx) h
      · rcases Outcome.bind_eq_error.mp h with h | ⟨widths, -, h⟩
        · -- operations are arithmetic, so they have widths
          obtain ⟨o, ho, h⟩ := Outcome.exists_of_mapM_eq_error h
          obtain ⟨part, hpart, ho⟩ := List.mem_flatten.mp ho
          obtain ⟨x, -, hx⟩ := Outcome.exists_of_mem_mapM hparts part hpart
          obtain ⟨-, i, hi, harith⟩ := (Kernel.mem_flatten hs.consistent.toWellFormed hx).mp ho
          obtain ⟨bits, hbits⟩ := Option.isSome_iff_exists.mp (hs.operation hi harith).2
          rw [Widths.width_eq_ok.mpr hbits] at h
          cases h
        · cases h

/-- Tracing the address of an instruction fails only as its chain does. -/
theorem undrawable_of_traceAddress (hi : s.kernel.instruction? v = some i)
    (h : traceAddress s i g = .error fault) : s.kernel.Undrawable fault := by
  rcases traceAddress_cases s i g with hpass | ⟨a, accesses, ha, computed, htrace⟩
  · cases hpass.symm.trans h
  · exact .address ⟨i, hi, accesses, ha, computed⟩ (untraceable_of_traceChain hs (htrace ▸ h))

/-- Where the nodes can be had, an instruction is refused for its address only. -/
theorem undrawable_of_addInstruction (hi : s.kernel.instruction? v = some i) (hv : s.Offers v)
    {os : List ValueId} (hos : sources s.kernel v i = .ok os) (offers : ∀ o ∈ os, s.Offers o)
    (h : addInstruction s bucket v i g = .error fault) : s.kernel.Undrawable fault := by
  obtain ⟨⟨g₁, n⟩, hreq⟩ := exists_request hs hv bucket g
  obtain ⟨g₂, hlinks⟩ := exists_links hs offers bucket n g₁
  rw [addInstruction, hreq] at h
  simp only [bind, Except.bind, hos, hlinks] at h
  rcases Outcome.bind_eq_error.mp h with h | ⟨g₃, -, h⟩
  · exact undrawable_of_traceAddress hs hi h
  · -- the guard, which can be applied
    obtain ⟨g₄, hguard⟩ := exists_applyGuard hs bucket n g₃
    cases hguard.symm.trans h

end

/-! ## Where widths have settled -/

/-- What construction can rely on after inference: the widths of the kernel have settled, and guards
are conditions of branches. -/
structure Setting.Settled (s : Setting) : Prop where
  consistent : s.kernel.Consistent
  carry : s.kernel.OperandsCarry
  binary : s.kernel.Binary
  covered : s.kernel.Covered s.widths
  branching : s.guards.Branching s.kernel

section

variable (hs : s.Settled)
include hs

theorem Setting.Settled.offers (hv : (s.widths.width? v).isSome) : s.Offers v :=
  ⟨hs.covered.inRange hv, hv⟩

/-- Every instruction but a return can be given a node. -/
theorem Setting.Settled.offers_of_opcode (hi : s.kernel.instruction? v = some i)
    (hne : i.opcode ≠ .ret) : s.Offers v :=
  hs.offers (hs.covered.isSome_of_opcode hi hne)

theorem Setting.Settled.stocked : s.Stocked where
  consistent := hs.consistent
  condition := by
    intro bucket guard hg
    obtain ⟨u, j, hj, hop, hc⟩ := hs.branching bucket guard hg
    have hmem : guard.condition ∈ j.handled := by
      simpa [Instruction.handled, hop] using Instruction.mem_take_of_operand? hc Nat.one_pos
    exact hs.offers (hs.covered.isSome_operand hs.carry hj hmem)
  operation := by
    intro v i hi harith
    refine hs.offers_of_opcode hi fun e => ?_
    rw [e] at harith
    cases harith

/-- **The sources of a tracked instruction** are found, and have widths. -/
theorem exists_sources (hi : s.kernel.instruction? v = some i)
    (tracked : i.opcode.isTracked = true) :
    ∃ os, sources s.kernel v i = .ok os ∧ ∀ o ∈ os, s.Offers o := by
  have hready := hs.covered.ready hi
  rcases Bool.or_eq_true_iff.mp tracked with accesses | computes
  · -- a load or store: the bases of its address, and what is stored
    obtain ⟨a, ha⟩ := Kernel.exists_address_of_ready accesses hready
    have wf := hs.consistent.toWellFormed
    obtain ⟨bs, hbs⟩ := Kernel.exists_bases wf
      (wf.operand_lt_size hi (Instruction.mem_operands_of_address? ha))
    refine ⟨_, by rw [Kernel.sources_of_isAccess accesses ha, hbs]; rfl, fun o ho => ?_⟩
    apply hs.offers
    -- bases have widths from the seeds, and what is stored has one from the rule of the store
    rcases List.mem_append.mp ho with ho | ho
    · obtain ⟨x, hx, base⟩ := ((Kernel.mem_bases hbs o).mp ho).isBase
      exact hs.covered.bases o x hx base
    · obtain ⟨x, hx, rfl⟩ := Option.map_eq_some_iff.mp (Option.mem_toList.mp ho)
      exact hs.covered.isSome_underlying hs.carry hi (Kernel.mem_handled_of_stored? hx)
  · -- arithmetic or a comparison: its operands
    refine ⟨_, Kernel.sources_of_isComputation computes, fun o ho => ?_⟩
    obtain ⟨x, hx, rfl⟩ := List.mem_map.mp ho
    -- the rule goes through two operands, and there are no more
    apply hs.offers
    apply hs.covered.isSome_underlying hs.carry hi
    rw [Kernel.handled_of_isComputation computes, ← hs.binary v i hi computes, List.take_length]
    exact hx

/-- **A visit fails at an address that cannot be traced.** -/
theorem undrawable_of_visit (h : visit s bucket g v = .error fault) :
    s.kernel.Undrawable fault := by
  unfold visit at h
  cases hi : s.kernel.instruction? v with
  | none =>
      simp only [hi] at h
      cases h
  | some i =>
      simp only [hi] at h
      split at h
      · cases h
      · obtain ⟨supported, -⟩ := (hs.covered.ready hi).supported
        cases hop : i.opcode <;> rw [hop] at h supported
        -- passed over, so there is no fault
        case getElementPtr | trunc | zext | br | condBr | ret => cases h
        -- inference has refused these before
        case switch | phi | call | and | or | xor | shl | lshr | sext | select => cases supported
        all_goals
          have tracked : i.opcode.isTracked = true := by rw [hop]; rfl
          obtain ⟨os, hos, offers⟩ := exists_sources hs hi tracked
          have hv := hs.offers_of_opcode hi (by rw [hop]; nofun)
          exact undrawable_of_addInstruction hs.stocked hi hv hos offers h

end

/-- **Once widths have settled, a graph is refused for a branch or an address.** -/
theorem undrawable_of_ofKernel {k : Kernel} {widths : Widths} (h : k.Consistent)
    (carry : k.OperandsCarry) (binary : k.Binary) (cov : k.Covered widths)
    (hfault : ofKernel k widths = .error fault) : k.Undrawable fault := by
  rcases Outcome.bind_eq_error.mp hfault with hfault | ⟨guards, hguards, hfault⟩
  · exact .successor (Guards.dangling_of_ofKernel (fun _ _ => cov.ready) hfault)
  · obtain ⟨feeds, hfeeds⟩ := FeedTable.exists_ofKernel h
    rcases Outcome.bind_eq_error.mp hfault with hfault | ⟨feeds', hfeeds', hfault⟩
    · cases hfeeds.symm.trans hfault
    · obtain rfl := Except.ok.inj (hfeeds.symm.trans hfeeds')
      have hs : Setting.Settled ⟨k, widths, guards, feeds⟩ :=
        ⟨h, carry, binary, cov, Guards.branching_of_ofKernel hguards⟩
      obtain ⟨g, entry, -, hfault⟩ := Outcome.exists_of_foldlM_eq_error hfault
      obtain ⟨g', v, -, hfault⟩ := Outcome.exists_of_foldlM_eq_error hfault
      exact undrawable_of_visit hs hfault

/-! ## Where there is a graph -/

/-- Every chain was recorded for an address that can be traced. -/
def Traced (k : Kernel) (g : Graph) : Prop := ∀ c ∈ g.chains, k.Traceable c.address

/-- No chain is recorded before the sweep. -/
theorem traced_numbered (k : Kernel) : (numbered k).Traced k := by
  intro c hc
  rw [chains_numbered] at hc
  cases hc

/-- A chain that is recorded, now or before, is that of an address that can be traced. -/
theorem traceable_of_traceChain (hg : g.Traced s.kernel) (h : traceChain s a g = .ok g') :
    s.kernel.Traceable a ∧ g'.Traced s.kernel := by
  unfold traceChain at h
  split at h
  · next hchain =>
    obtain rfl := Outcome.pure_eq_ok.mp h
    -- a chain is found by its address, so it was recorded for this one
    unfold chain? at hchain
    obtain ⟨c, hc⟩ := Option.isSome_iff_exists.mp hchain
    have haddress : c.address = a := by simpa using List.find?_some hc
    exact ⟨haddress ▸ hg c (List.mem_of_find?_eq_some hc), hg⟩
  · obtain ⟨base, hbase, h⟩ := Outcome.bind_eq_ok.mp h
    obtain ⟨parts, hparts, h⟩ := Outcome.bind_eq_ok.mp h
    obtain ⟨widths, -, h⟩ := Outcome.bind_eq_ok.mp h
    obtain rfl := Outcome.pure_eq_ok.mp h
    -- a new chain: its base was found, and its indices were flattened
    have traceable : s.kernel.Traceable a := by
      refine ⟨⟨base, hbase⟩, fun {i x} hi hx => ?_⟩
      exact Outcome.exists_of_mapM_eq_ok hparts x (by simpa [hi] using hx)
    refine ⟨traceable, fun c hc => ?_⟩
    rcases List.mem_append.mp hc with hc | hc
    · exact hg c hc
    · obtain rfl := List.mem_singleton.mp hc
      exact traceable

/-- Chains are recorded in one kind of step only. -/
theorem kept_traced (s : Setting) (bucket : Nat) : Kept s bucket (Traced s.kernel) where
  request hg h := by
    rcases request_eq_ok h with ⟨rfl, -⟩ | ⟨-, node, hadd, -⟩
    · exact hg
    · obtain rfl := congrArg Prod.fst hadd
      exact hg
  use _ hg _ := hg
  trace {i g g'} hg h := by
    rcases traceAddress_cases s i g with hpass | ⟨a, -, -, -, htrace⟩
    · obtain rfl := Except.ok.inj (hpass.symm.trans h)
      exact hg
    · exact (traceable_of_traceChain hg (htrace ▸ h)).2
  control _ hg _ := hg

/-- Where a load or store of a computed address is added, the address can be traced. -/
theorem traceable_of_addInstruction (hg : g.Traced s.kernel)
    (h : addInstruction s bucket v i g = .ok g') (accesses : i.opcode.isAccess = true)
    (ha : i.address? = some a) (computed : s.kernel.opcode? a = some .getElementPtr) :
    s.kernel.Traceable a := by
  have kept := kept_traced s bucket
  obtain ⟨⟨g₁, n⟩, hreq, h⟩ := Outcome.bind_eq_ok.mp h
  obtain ⟨os, -, h⟩ := Outcome.bind_eq_ok.mp h
  obtain ⟨g₂, hlinks, h⟩ := Outcome.bind_eq_ok.mp h
  obtain ⟨g₃, htrace, -⟩ := Outcome.bind_eq_ok.mp h
  rw [traceAddress_of_computed accesses ha computed] at htrace
  exact (traceable_of_traceChain (kept.links (kept.request hg hreq) hlinks) htrace).1

/-- **Where there is a graph, every address below a load or a store can be traced**, and branches
lead to blocks. -/
theorem not_undrawable_of_ofKernel {k : Kernel} {widths : Widths} (h : k.Consistent)
    (hg : ofKernel k widths = .ok g) : ¬ k.Undrawable fault := by
  obtain ⟨guards, hguards, hg⟩ := Outcome.bind_eq_ok.mp hg
  obtain ⟨feeds, hfeeds, hg⟩ := Outcome.bind_eq_ok.mp hg
  intro hfault
  cases hfault with
  | successor dangling =>
      cases dangling with
      | successor known branches leads missing =>
          exact Nat.not_lt_of_le missing
            (Guards.successor_lt_of_ofKernel h hguards known branches leads)
  | @address v a _ goes untraceable =>
      obtain ⟨i, hi, accesses, ha, computed⟩ := goes
      refine Kernel.traceable_iff.mp ?_ fault untraceable
      -- the visit of the load or store recorded the chain, or found it recorded
      rw [foldlM_visitBlock ⟨k, widths, guards, feeds⟩] at hg
      obtain ⟨bucket, hentry⟩ := h.toWellFormed.exists_mem_schedule hi
      obtain ⟨d, e, hd, hvisit⟩ := Outcome.exists_preserved_of_foldlM_eq_ok
        (motive := Traced k)
        (fun _ _ _ => (kept_traced ⟨k, widths, guards, feeds⟩ _).visit hfeeds)
        (traced_numbered k) hg (v, bucket) hentry
      rcases visit_cases hfeeds hvisit with ⟨j, tj, hadd⟩ | ⟨untracked, -⟩
      · obtain rfl := Option.some.inj (hi.symm.trans tj.known)
        exact traceable_of_addInstruction (s := ⟨k, widths, guards, feeds⟩) hd hadd accesses ha
          computed
      · exact absurd (.of_isAccess hi accesses) (untracked i)

end Graph

end Datapath
