import Datapath.Proofs.Graph.InRange

/-!
# Construction on its own

Inference refuses a kernel for every opcode without a rule, so construction seldom meets one. Given
widths from elsewhere it has to see to this itself, and it does so instruction by instruction, when
their turn comes. What feeds an address is passed over first and never asked for its opcode, unless
it takes part in the index of an address that is recorded.

`Kernel.Drawable` lists what construction asks of a kernel. There is a graph exactly if the kernel
is drawable, once all values have widths; without a width there may be no graph in any case.
-/

namespace Datapath

open Relation (ReflTransGen)

/-! ## What construction asks for -/

namespace Kernel

/-- Of the address that some load or store goes to, an index is computed from `v`. -/
def IndexesAccess (k : Kernel) (v : ValueId) : Prop :=
  ∃ u a i x, k.GoesTo u a ∧ k.instruction? a = some i ∧ x ∈ i.indices ∧
    ReflTransGen k.ComputesFrom (k.underlying x) v

/-- What construction asks of a kernel, apart from widths. -/
structure Drawable (k : Kernel) : Prop where
  /-- No block ends in a multi-way branch. -/
  twoWay : ∀ {v i}, k.instruction? v = some i → i.opcode ≠ .switch
  condition : ∀ {v i}, k.instruction? v = some i → i.opcode = .condBr → ∃ c, i.condition? = some c
  successor : ∀ {v i b}, k.instruction? v = some i → i.opcode = .condBr →
    b ∈ i.successors.take 2 → b.index < k.blocks.size
  /-- Instructions that are not supported are passed over, since they feed an address. -/
  hidden : ∀ {v i}, k.instruction? v = some i → i.opcode.isSupported = false → k.FeedsAddress v
  address : ∀ {v i}, k.instruction? v = some i → i.opcode.isAccess = true →
    ∃ a, i.address? = some a
  traceable : ∀ {v a}, k.GoesTo v a → k.Traceable a

variable {k : Kernel} {v a : ValueId} {i : Instruction}

/-- Nothing stands against a drawable kernel. -/
theorem Drawable.not_undrawable (d : k.Drawable) (fault : Fault) : ¬ k.Undrawable fault := by
  intro hfault
  cases hfault with
  | successor dangling =>
      cases dangling with
      | successor known branches leads missing =>
          exact Nat.not_lt_of_le missing (d.successor known branches leads)
  | address goes untraceable => exact traceable_iff.mp (d.traceable goes) fault untraceable

/-- An index that is computed from an unsupported instruction cannot be flattened. -/
theorem Drawable.not_indexesAccess (d : k.Drawable) (wf : k.WellFormed)
    (hi : k.instruction? v = some i) (unsupported : i.opcode.isSupported = false) :
    ¬ k.IndexesAccess v := by
  rintro ⟨u, a, j, x, goes, hj, hx, chain⟩
  obtain ⟨os, hos⟩ := (d.traceable goes).indices hj hx
  have hlt := wf.underlying_lt_size
    (wf.operand_lt_size hj (Instruction.mem_operands_of_mem_indices hx))
  refine (exists_flatten_iff wf hlt).mp ⟨os, hos⟩ v chain ?_
  rw [misplaced_iff hi]
  cases hop : i.opcode <;> rw [hop] at unsupported <;> cases unsupported <;> exact ⟨rfl, nofun⟩

end Kernel

/-! ## Where there is a graph -/

namespace Graph

variable {k : Kernel} {w : Widths} {s : Setting} {bucket : Nat} {g g' : Graph} {v a : ValueId}
  {i : Instruction}

/-- The sweep meets every instruction. -/
theorem exists_visit_of_ofKernel (wf : k.WellFormed) (h : ofKernel k w = .ok g)
    (hi : k.instruction? v = some i) :
    ∃ guards feeds bucket before after, FeedTable.ofKernel k = .ok feeds ∧
      visit ⟨k, w, guards, feeds⟩ bucket before v = .ok after := by
  obtain ⟨guards, -, h⟩ := Outcome.bind_eq_ok.mp h
  obtain ⟨feeds, hfeeds, h⟩ := Outcome.bind_eq_ok.mp h
  rw [foldlM_visitBlock ⟨k, w, guards, feeds⟩] at h
  obtain ⟨bucket, hentry⟩ := wf.exists_mem_schedule hi
  obtain ⟨before, after, hvisit⟩ := Outcome.exists_of_foldlM_eq_ok h (v, bucket) hentry
  exact ⟨guards, feeds, bucket, before, after, hfeeds, hvisit⟩

/-- A visit lets an unsupported instruction pass only if it feeds an address. -/
theorem feedsAddress_of_visit (hfeeds : FeedTable.ofKernel s.kernel = .ok s.feeds)
    (hi : s.kernel.instruction? v = some i) (unsupported : i.opcode.isSupported = false)
    (h : visit s bucket g v = .ok g') : s.kernel.FeedsAddress v := by
  unfold visit at h
  simp only [hi] at h
  split at h
  · next hf => exact (FeedTable.feeds_iff hfeeds (Kernel.instruction?_lt hi)).mp hf
  · cases hop : i.opcode <;> rw [hop] at h unsupported
    -- the visit fails at these
    case switch | phi | call | and | or | xor | shl | lshr | sext | select => cases h
    all_goals cases unsupported

/-- A visit of a load or a store finds its address. -/
theorem exists_address_of_visit (hfeeds : FeedTable.ofKernel s.kernel = .ok s.feeds)
    (hi : s.kernel.instruction? v = some i) (accesses : i.opcode.isAccess = true)
    (h : visit s bucket g v = .ok g') : ∃ a, i.address? = some a := by
  rcases visit_cases hfeeds h with ⟨j, t, hadd⟩ | ⟨untracked, -⟩
  · obtain rfl := Option.some.inj (hi.symm.trans t.known)
    obtain ⟨⟨g₁, n⟩, -, hadd⟩ := Outcome.bind_eq_ok.mp hadd
    obtain ⟨os, hos, -⟩ := Outcome.bind_eq_ok.mp hadd
    exact Kernel.exists_address_of_isAccess accesses hos
  · exact absurd (.of_isAccess hi accesses) (untracked i)

/-- **Only drawable kernels have graphs.** -/
theorem drawable_of_ofKernel (h : k.Consistent) (hg : ofKernel k w = .ok g) : k.Drawable := by
  obtain ⟨guards, hguards, -⟩ := Outcome.bind_eq_ok.mp hg
  constructor
  case twoWay =>
    intro v i hi hop
    obtain ⟨block, before, after, henter⟩ :=
      Guards.exists_enter_of_ofKernel h hguards hi (by rw [hop]; rfl)
    simp [Guards.enter, hop] at henter
  case condition =>
    intro v i hi hop
    obtain ⟨block, before, after, henter⟩ :=
      Guards.exists_enter_of_ofKernel h hguards hi (by rw [hop]; rfl)
    cases hc : i.condition? with
    | some c => exact ⟨c, rfl⟩
    | none => simp [Guards.enter, hop, hc] at henter
  case successor =>
    intro v i b hi hop hb
    exact Guards.successor_lt_of_ofKernel h hguards hi hop hb
  case hidden =>
    intro v i hi unsupported
    obtain ⟨_, _, _, _, _, hfeeds, hvisit⟩ := exists_visit_of_ofKernel h.toWellFormed hg hi
    exact feedsAddress_of_visit hfeeds hi unsupported hvisit
  case address =>
    intro v i hi accesses
    obtain ⟨_, _, _, _, _, hfeeds, hvisit⟩ := exists_visit_of_ofKernel h.toWellFormed hg hi
    exact exists_address_of_visit hfeeds hi accesses hvisit
  case traceable =>
    intro v a goes
    exact Kernel.traceable_iff.mpr fun fault untraceable =>
      not_undrawable_of_ofKernel h hg (.address goes untraceable)

end Graph

/-! ## Where all values have widths -/

namespace Guards

variable {k : Kernel}

/-- The terminators of a drawable kernel enter their guards. -/
theorem exists_enter (d : k.Drawable) {v : ValueId} {i : Instruction}
    (hi : k.instruction? v = some i) (terminates : i.opcode.isTerminator = true) (block : Block)
    (guards : Guards) : ∃ after, enter k (Graph.numbered k) block v i guards = .ok after := by
  unfold enter
  cases hop : i.opcode <;> rw [hop] at terminates
  case condBr =>
    obtain ⟨c, hc⟩ := d.condition hi hop
    simp only [hc]
    refine Outcome.exists_foldlM_eq_ok_of_forall (fun target htarget guards => ?_) guards
    have hlt := d.successor hi hop (mem_zip_polarities.mp ⟨target.2, htarget⟩)
    obtain ⟨n, hn⟩ := exists_bucketOf_iff.mpr hlt
    exact ⟨_, by rw [hn]; rfl⟩
  case br | ret => exact ⟨guards, rfl⟩
  case switch => exact absurd hop (d.twoWay hi)
  all_goals cases terminates

/-- The guards of a drawable kernel can be collected. -/
theorem exists_ofKernel (d : k.Drawable) :
    ∃ guards, ofKernel k (Graph.numbered k) = .ok guards := by
  refine Outcome.exists_foldlM_eq_ok_of_forall (fun block _ guards => ?_) _
  cases hv : k.terminator? block with
  | none => exact ⟨guards, rfl⟩
  | some v =>
      cases hi : k.instruction? v with
      | none => exact ⟨guards, by simp only [hi]; rfl⟩
      | some i =>
          obtain ⟨-, terminates⟩ := Option.filter_eq_some_iff.mp hv
          have terminates : i.opcode.isTerminator = true := by
            simpa [Kernel.opcode?, hi] using terminates
          simpa only [hi] using exists_enter d hi terminates block guards

end Guards

namespace Graph

variable {k : Kernel} {w : Widths} {s : Setting} {bucket : Nat} {g g' : Graph} {v a : ValueId}
  {i : Instruction}

/-- Construction has what it reads: each value of the kernel has a width. -/
structure Setting.Furnished (s : Setting) : Prop extends s.Sound where
  known : ∀ v, v.index < s.kernel.size → (s.widths.width? v).isSome

namespace Setting.Furnished

variable (hs : s.Furnished)
include hs

theorem offers (hlt : v.index < s.kernel.size) : s.Offers v := ⟨hlt, hs.known v hlt⟩

theorem stocked : s.Stocked where
  consistent := hs.consistent
  condition := by
    intro bucket guard hg
    obtain ⟨u, j, hj, -, hc⟩ := hs.branching bucket guard hg
    exact hs.offers (hs.consistent.operand_lt_size hj (Instruction.mem_operands_of_operand? hc))
  operation := fun hi _ => hs.offers (Kernel.instruction?_lt hi)

/-- Sources are found for whatever the sweep adds, since loads and stores have addresses. -/
theorem exists_sources (d : s.kernel.Drawable) (hi : s.kernel.instruction? v = some i) :
    ∃ os, sources s.kernel v i = .ok os := by
  by_cases accesses : i.opcode.isAccess = true
  · obtain ⟨a, ha⟩ := d.address hi accesses
    have wf := hs.consistent.toWellFormed
    obtain ⟨bs, hbs⟩ := Kernel.exists_bases wf
      (wf.operand_lt_size hi (Instruction.mem_operands_of_address? ha))
    exact ⟨_, by rw [Kernel.sources_of_isAccess accesses ha, hbs]; rfl⟩
  · exact ⟨_, sources_of_not_isAccess accesses⟩

theorem exists_addInstruction (d : s.kernel.Drawable) (hi : s.kernel.instruction? v = some i)
    (g : Graph) : ∃ g', addInstruction s bucket v i g = .ok g' := by
  obtain ⟨os, hos⟩ := hs.exists_sources d hi
  have offers : ∀ o ∈ os, s.Offers o := fun o ho =>
    hs.offers (lt_size_of_mem_sources hs.consistent.toWellFormed hi hos ho)
  have hv := hs.offers (Kernel.instruction?_lt hi)
  -- all nodes can be had, so only the address could be refused
  refine Outcome.exists_eq_ok_iff.mpr fun fault fails => d.not_undrawable fault ?_
  exact undrawable_of_addInstruction hs.stocked hi hv hos offers fails

/-- **No visit fails** of a drawable kernel. -/
theorem exists_visit (d : s.kernel.Drawable) (hfeeds : FeedTable.ofKernel s.kernel = .ok s.feeds)
    (v : ValueId) (g : Graph) : ∃ g', visit s bucket g v = .ok g' := by
  unfold visit
  cases hi : s.kernel.instruction? v with
  | none => exact ⟨g, rfl⟩
  | some i =>
      dsimp only
      split
      · exact ⟨g, rfl⟩
      · next hf =>
        -- what is not supported feeds an address, and the visit has passed it over
        have supported : i.opcode.isSupported = true := by
          by_contra unsupported
          have feeds := d.hidden hi (Bool.eq_false_iff.mpr unsupported)
          exact hf ((FeedTable.feeds_iff hfeeds (Kernel.instruction?_lt hi)).mpr feeds)
        cases hop : i.opcode <;> rw [hop] at supported
        case getElementPtr | trunc | zext | br | condBr | ret => exact ⟨g, rfl⟩
        case switch | phi | call | and | or | xor | shl | lshr | sext | select => cases supported
        all_goals exact hs.exists_addInstruction d hi g

end Setting.Furnished

/-- **A drawable kernel has a graph** once all values have widths. -/
theorem exists_ofKernel_of_drawable (h : k.Consistent) (d : k.Drawable)
    (known : ∀ v, v.index < k.size → (w.width? v).isSome) : ∃ g, ofKernel k w = .ok g := by
  obtain ⟨guards, hguards⟩ := Guards.exists_ofKernel d
  obtain ⟨feeds, hfeeds⟩ := FeedTable.exists_ofKernel h
  have hs : Setting.Furnished ⟨k, w, guards, feeds⟩ :=
    ⟨⟨h, Guards.branching_of_ofKernel hguards⟩, known⟩
  obtain ⟨g, hg⟩ := Outcome.exists_foldlM_eq_ok_of_forall
    (f := visitBlock ⟨k, w, guards, feeds⟩) (l := k.blocks.toList.zipIdx 1)
    (fun entry _ g => Outcome.exists_foldlM_eq_ok_of_forall
      (fun v _ g => hs.exists_visit d hfeeds v g) g) (numbered k)
  exact ⟨g, by simp only [ofKernel, hguards, hfeeds, bind, Except.bind]; exact hg⟩

end Graph

/-! ## Unsupported instructions -/

namespace Kernel

variable {k : Kernel}

/-- **Construction fails on an unsupported instruction** that is a multi-way branch, does not feed
an address, or takes part in the index of an address that a load or a store goes to. Any other
unsupported instruction is passed over without a word. So the kernels that have graphs are exactly
the drawable ones, and in these there may be unsupported instructions left. -/
theorem ofKernel_unsupported {name : String} {script : List Step}
    (built : Kernel.ofScript? name script = some k) :
    (∀ v i, k.instruction? v = some i → i.opcode.isSupported = false →
      i.opcode = .switch ∨ ¬ k.FeedsAddress v ∨ k.IndexesAccess v →
        ∀ w, ∃ why, Graph.ofKernel k w = .error (.rejected why)) ∧
    ∀ w : Widths, (∀ v, v.index < k.size → w.has v = true) →
      ((∃ g, Graph.ofKernel k w = .ok g) ↔ k.Drawable) := by
  have h := ofScript?_consistent built
  constructor
  · intro v i hi unsupported shows w
    apply (Graph.inRange_ofKernel h w).exists_rejection
    cases hg : Graph.ofKernel k w with
    | error fault => rfl
    | ok g =>
        have d := Graph.drawable_of_ofKernel h hg
        rcases shows with hop | hfeeds | hindex
        · exact absurd hop (d.twoWay hi)
        · exact absurd (d.hidden hi unsupported) hfeeds
        · exact absurd hindex (d.not_indexesAccess h.toWellFormed hi unsupported)
  · intro w known
    constructor
    · rintro ⟨g, hg⟩
      exact Graph.drawable_of_ofKernel h hg
    · exact fun d => Graph.exists_ofKernel_of_drawable h d known

/-- The index of an address is scrambled, and nothing is loaded from the address or stored to it. -/
def scrambledScript : List Step :=
  [.param "p" (.pointer (.int 8)), .param "x" (.int 8), .block "entry", .moveTo ⟨0⟩,
    .instruction .xor [⟨1⟩, ⟨1⟩] (.int 8) "y", .elementPointer ⟨0⟩ [⟨2⟩] "address", .ret none]

def scrambled : Kernel :=
  (Kernel.ofScript? "scrambled" scrambledScript).getD (.empty "scrambled")

/-- There is a graph, so the kernel is drawable, and it has an instruction that is not supported. -/
theorem ofKernel_unsupported_scrambled :
    Kernel.ofScript? "scrambled" scrambledScript = some scrambled ∧
      (∃ i, scrambled.instruction? ⟨2⟩ = some i ∧ i.opcode.isSupported = false) ∧
      (∃ g, Graph.ofKernel scrambled (scrambled.uniform 8) = .ok g) ∧ scrambled.Drawable := by
  have built : Kernel.ofScript? "scrambled" scrambledScript = some scrambled := rfl
  have drawn : (Graph.ofKernel scrambled (scrambled.uniform 8)).toOption.isSome = true := by
    decide +kernel
  have known : ∀ v : ValueId, v.index < scrambled.size → (scrambled.uniform 8).has v = true := by
    have hids : ∀ v ∈ scrambled.ids, (scrambled.uniform 8).has v = true := by decide +kernel
    exact fun v hv => hids v (mem_ids.mpr hv)
  cases hg : Graph.ofKernel scrambled (scrambled.uniform 8) with
  | error fault =>
      rw [hg] at drawn
      cases drawn
  | ok g =>
      have drawable := ((ofKernel_unsupported built).2 _ known).mp ⟨g, hg⟩
      exact ⟨built, ⟨_, rfl, rfl⟩, ⟨g, rfl⟩, drawable⟩

end Kernel

end Datapath
