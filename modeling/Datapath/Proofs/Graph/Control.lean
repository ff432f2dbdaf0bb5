import Datapath.Analysis
import Datapath.Proofs.Graph.Guarding
import Datapath.Proofs.Graph.Indices
import Datapath.Proofs.Graph.Verdict

/-!
# Control edges

A conditional branch leads to two blocks, and each of its outcomes is a guard of the block that it
leads to. A block has as many guards as branches lead to it, but guards are entered in a table that
has room for one. `Kernel.LastGuard` tells which it is: that of the last branch in block order, and
of two outcomes of one branch the false one.

So the control edges of a graph are sound, `control_edges_sound`, but not complete: what stands in a
block depends on a guard exactly if this is the last one, `guard_reaches_iff`.
-/

namespace Datapath

/-! ## The last of a list -/

/-- A search from the end finds the last place where there is something. -/
theorem findSome?_reverse_eq_some_iff {α β : Type} {l : List α} {f : α → Option β} {y : β} :
    l.reverse.findSome? f = some y ↔ ∃ (n : Nat) (x : α), l[n]? = some x ∧ f x = some y ∧
      ∀ (m : Nat) (z : α), l[m]? = some z → n < m → f z = none := by
  rw [List.findSome?_eq_some_iff]
  constructor
  · rintro ⟨after, x, before, hl, hx, hafter⟩
    have hl : l = before.reverse ++ x :: after.reverse := by simpa using congrArg List.reverse hl
    refine ⟨before.length, x, by simp [hl], hx, fun m z hz hm => hafter z ?_⟩
    obtain ⟨d, rfl⟩ := Nat.exists_eq_add_of_lt hm
    rw [hl, List.getElem?_append_right (by simp; omega)] at hz
    simp only [List.length_reverse, Nat.add_assoc, Nat.add_sub_cancel_left,
      List.getElem?_cons_succ] at hz
    exact List.mem_reverse.mp (List.mem_of_getElem? hz)
  · rintro ⟨n, x, hn, hx, hlast⟩
    obtain ⟨hlt, rfl⟩ := List.getElem?_eq_some_iff.mp hn
    refine ⟨(l.drop (n + 1)).reverse, l[n], (l.take n).reverse, ?_, hx, fun z hz => ?_⟩
    · simp
    · obtain ⟨d, hd⟩ := List.mem_iff_getElem?.mp (List.mem_reverse.mp hz)
      rw [List.getElem?_drop] at hd
      exact hlast _ z hd (by omega)

/-! ## Branches -/

def Instruction.successor? (i : Instruction) : Polarity → Option BlockId
  | .whenTrue => i.successors[0]?
  | .whenFalse => i.successors[1]?

namespace Kernel

variable {k : Kernel} {block : Block} {b : BlockId} {guard : Guard} {n : Nat}

def StandsIn (k : Kernel) (v : ValueId) (b : BlockId) : Prop :=
  ∃ block, k.blocks[b.index]? = some block ∧ v ∈ block.instructions

/-- A block ends in a branch that leads to `b` if the guard holds. The branch has a condition, so it
is a conditional one. -/
def Exits (k : Kernel) (block : Block) (guard : Guard) (b : BlockId) : Prop :=
  ∃ v i, k.terminator? block = some v ∧ k.instruction? v = some i ∧
    i.condition? = some guard.condition ∧ i.successor? guard.polarity = some b

/-- The block with a number ends in a conditional branch that leads to `b` if the guard holds. -/
def LeadsTo (k : Kernel) (n : Nat) (guard : Guard) (b : BlockId) : Prop :=
  ∃ block, k.blocks[n]? = some block ∧ k.Exits block guard b

/-- No block behind the `n`-th leads to `b`, and if this does so at both outcomes, then the guard is
the false one. -/
structure LastGuard (k : Kernel) (b : BlockId) (n : Nat) (guard : Guard) : Prop where
  leads : k.LeadsTo n guard b
  last : ∀ m other, k.LeadsTo m other b → m ≤ n
  falseFirst : k.LeadsTo n ⟨guard.condition, .whenFalse⟩ b → guard.polarity = .whenFalse

/-- The guard that a block sets up for `b`. -/
def exit? (k : Kernel) (block : Block) (b : BlockId) : Option Guard := do
  let i ← (k.terminator? block).bind k.instruction?
  let condition ← i.condition?
  if i.successor? .whenFalse = some b then return ⟨condition, .whenFalse⟩
  else if i.successor? .whenTrue = some b then return ⟨condition, .whenTrue⟩
  else none

/-- A block sets up a guard if it leads to `b` at all. The false outcome comes first. -/
theorem exit?_eq_some_iff : k.exit? block b = some guard ↔ k.Exits block guard b ∧
    (k.Exits block ⟨guard.condition, .whenFalse⟩ b → guard.polarity = .whenFalse) := by
  obtain ⟨c, p⟩ := guard
  unfold exit? Exits
  cases hv : k.terminator? block with
  | none => simp
  | some v =>
    cases hi : k.instruction? v with
    | none => simp [hi]
    | some i =>
      cases hc : i.condition? with
      | none => simp [hi, hc]
      | some condition =>
        -- the false outcome is looked at first, so the true one counts only if that leads elsewhere
        by_cases hfalse : i.successor? .whenFalse = some b
        · cases p <;> simp +contextual [hi, hc, hfalse]
        · by_cases htrue : i.successor? .whenTrue = some b
          · cases p <;> simp [hi, hc, hfalse, htrue]
          · cases p <;> simp [hi, hc, hfalse, htrue]

/-- A block that leads to `b` at no outcome sets up no guard for it. -/
theorem exit?_eq_none_iff : k.exit? block b = none ↔ ∀ guard, ¬ k.Exits block guard b := by
  constructor
  · intro hnone
    have hfalse (c : ValueId) : ¬ k.Exits block ⟨c, .whenFalse⟩ b := by
      intro hexits
      cases hnone.symm.trans (exit?_eq_some_iff.mpr ⟨hexits, fun _ => rfl⟩)
    intro guard hexits
    have hguard : k.exit? block b = some guard :=
      exit?_eq_some_iff.mpr ⟨hexits, fun h => absurd h (hfalse _)⟩
    cases hnone.symm.trans hguard
  · intro hnone
    by_contra hsome
    obtain ⟨guard, hguard⟩ := Option.ne_none_iff_exists'.mp hsome
    exact hnone guard (exit?_eq_some_iff.mp hguard).1

/-- Going through the blocks from the last one, the first guard is the last one. -/
theorem findSome?_exit?_iff : k.blocks.toList.reverse.findSome? (k.exit? · b) = some guard ↔
    ∃ n, k.LastGuard b n guard := by
  rw [findSome?_reverse_eq_some_iff]
  refine exists_congr fun n => ?_
  constructor
  · -- nothing is found in the blocks behind, so none of them leads here
    rintro ⟨block, hn, hguard, hlater⟩
    rw [Array.getElem?_toList] at hn
    obtain ⟨hexits, hfalse⟩ := exit?_eq_some_iff.mp hguard
    refine ⟨⟨block, hn, hexits⟩, ?_, ?_⟩
    · rintro m other ⟨block', hm, hother⟩
      by_contra hlt
      rw [← Array.getElem?_toList] at hm
      exact exit?_eq_none_iff.mp (hlater m block' hm (Nat.lt_of_not_le hlt)) other hother
    · rintro ⟨block', hn', hexits'⟩
      obtain rfl := Option.some.inj (hn.symm.trans hn')
      exact hfalse hexits'
  · rintro ⟨⟨block, hn, hexits⟩, hlast, hfalse⟩
    refine ⟨block, Array.getElem?_toList.trans hn, ?_, fun m block' hm hlt => ?_⟩
    · exact exit?_eq_some_iff.mpr ⟨hexits, fun h => hfalse ⟨block, hn, h⟩⟩
    · refine exit?_eq_none_iff.mpr fun other hother => ?_
      rw [Array.getElem?_toList] at hm
      exact absurd (hlast m other ⟨block', hm, hother⟩) (Nat.not_le_of_lt hlt)

/-- Some guard is the last one of a block that a branch leads to. -/
theorem exists_lastGuard (h : k.LeadsTo n guard b) : ∃ m other, k.LastGuard b m other := by
  obtain ⟨block, hn, hexits⟩ := h
  have hmem : block ∈ k.blocks.toList.reverse :=
    List.mem_reverse.mpr (Array.mem_toList_iff.mpr (Array.mem_of_getElem? hn))
  cases hfound : k.blocks.toList.reverse.findSome? (k.exit? · b) with
  | none =>
      have hnone := List.findSome?_eq_none_iff.mp hfound _ hmem
      exact absurd hexits (exit?_eq_none_iff.mp hnone _)
  | some other =>
      obtain ⟨m, hlast⟩ := findSome?_exit?_iff.mp hfound
      exact ⟨m, other, hlast⟩

end Kernel

/-! ## Entering guards -/

namespace Guards

variable {k : Kernel} {v : ValueId} {i : Instruction} {block : Block} {b : BlockId}
  {guards guards' : Guards} {guard : Guard}

/-- The bucket of a block belongs to no other, so one guard is entered. -/
theorem find?_insert_bucketOf {t : BlockId}
    (h : (return guards.insert (← bucketOf (Graph.numbered k) t) guard) = .ok guards') :
    guards'.find? (b.index + 1) = if t = b then some guard else guards.find? (b.index + 1) := by
  obtain ⟨bucket, hbucket, h⟩ := Outcome.bind_eq_ok.mp h
  obtain rfl := Outcome.pure_eq_ok.mp h
  unfold bucketOf at hbucket
  split at hbucket
  · next hindex =>
    obtain rfl := Except.ok.inj hbucket
    obtain ⟨rfl, -⟩ := (Graph.numbers_numbered k).blockIndex?_eq_some_iff.mp hindex
    obtain ⟨t⟩ := t
    obtain ⟨b⟩ := b
    simp [Table.find?_insert]
  · cases hbucket

/-- The guard of the true outcome is entered first, then that of the false one. -/
theorem find?_successors {bs : List BlockId} {condition : ValueId}
    (h : (bs.zip [Polarity.whenTrue, Polarity.whenFalse]).foldlM (fun guards (successor, polarity) =>
      return guards.insert (← bucketOf (Graph.numbered k) successor) ⟨condition, polarity⟩) guards =
        .ok guards') :
    guards'.find? (b.index + 1) = if bs[1]? = some b then some ⟨condition, .whenFalse⟩
      else if bs[0]? = some b then some ⟨condition, .whenTrue⟩
      else guards.find? (b.index + 1) := by
  rcases bs with _ | ⟨t, _ | ⟨f, rest⟩⟩
  · -- no successors, and nothing is entered
    obtain rfl := Outcome.pure_eq_ok.mp h
    rfl
  · rw [List.zip_cons_cons, List.zip_nil_left, List.foldlM_cons] at h
    obtain ⟨mid, htrue, h⟩ := Outcome.bind_eq_ok.mp h
    obtain rfl := Outcome.pure_eq_ok.mp h
    simp [find?_insert_bucketOf htrue]
  · rw [List.zip_cons_cons, List.zip_cons_cons, List.zip_nil_right, List.foldlM_cons] at h
    obtain ⟨mid, htrue, h⟩ := Outcome.bind_eq_ok.mp h
    rw [List.foldlM_cons] at h
    obtain ⟨last, hfalse, h⟩ := Outcome.bind_eq_ok.mp h
    obtain rfl := Outcome.pure_eq_ok.mp h
    simp [find?_insert_bucketOf hfalse, find?_insert_bucketOf htrue]

/-- A block enters the guard that it sets up, if it sets up one. -/
theorem find?_enter (hv : k.terminator? block = some v) (hi : k.instruction? v = some i)
    (h : enter k (Graph.numbered k) block v i guards = .ok guards') :
    guards'.find? (b.index + 1) = (k.exit? block b).or (guards.find? (b.index + 1)) := by
  have hnone (hc : i.condition? = none) : k.exit? block b = none := by
    simp [Kernel.exit?, hv, hi, hc]
  unfold enter at h
  split at h
  · split at h
    · cases h
    · next condition hc =>
      rw [find?_successors h]
      simp only [Kernel.exit?, hv, hi, hc, Instruction.successor?, Option.bind_eq_bind,
        Option.bind_some, Option.pure_def]
      by_cases hfalse : i.successors[1]? = some b
      · simp [hfalse]
      · by_cases htrue : i.successors[0]? = some b <;> simp [hfalse, htrue]
  · next hop =>
    obtain rfl := Outcome.pure_eq_ok.mp h
    rw [hnone (by simp [Instruction.condition?, hop]), Option.none_or]
  · next hop =>
    obtain rfl := Outcome.pure_eq_ok.mp h
    rw [hnone (by simp [Instruction.condition?, hop]), Option.none_or]
  · cases h

/-- **The guard of a block** is the last one that leads to it. -/
theorem find?_ofKernel_iff (h : ofKernel k (Graph.numbered k) = .ok guards) :
    guards.find? (b.index + 1) = some guard ↔ ∃ n, k.LastGuard b n guard := by
  rw [← Kernel.findSome?_exit?_iff]
  suffices hfind : guards.find? (b.index + 1) =
      k.blocks.toList.reverse.findSome? (k.exit? · b) by rw [hfind]
  refine Outcome.foldlM_prefix_induction (motive := fun done guards => guards.find? (b.index + 1) =
    done.reverse.findSome? (k.exit? · b)) ?_ rfl h
  -- each block has its guard put before those of the blocks that came earlier
  rintro done block rest guards guards' - hdone hstep
  have hnext : guards'.find? (b.index + 1) =
      (k.exit? block b).or (guards.find? (b.index + 1)) := by
    split at hstep
    · next hv =>
      obtain rfl := Outcome.pure_eq_ok.mp hstep
      simp [Kernel.exit?, hv]
    · next v hv =>
      split at hstep
      · next hi =>
        obtain rfl := Outcome.pure_eq_ok.mp hstep
        simp [Kernel.exit?, hv, hi]
      · next i hi => exact find?_enter hv hi hstep
  rw [List.reverse_append, List.reverse_singleton, List.singleton_append, List.findSome?_cons,
    hnext, hdone]
  cases k.exit? block b <;> rfl

end Guards

/-! ## Control edges -/

namespace Graph

variable {k : Kernel} {widths : Widths} {g : Graph} {v : ValueId} {i : Instruction} {b : BlockId}
  {n : NodeId} {node : Node} {guard : Guard}

/-- The guard that a control edge stands for. -/
def guardOf? (g : Graph) (edge : ControlEdge) : Option Guard :=
  (g.valueAt? edge.source).map fun condition => ⟨condition, edge.polarity⟩

theorem guardOf?_eq_some_iff {edge : ControlEdge} : g.guardOf? edge = some guard ↔
    g.valueAt? edge.source = some guard.condition ∧ edge.polarity = guard.polarity := by
  obtain ⟨c, p⟩ := guard
  simp [guardOf?]

/-- A node has a control edge that stands for a guard. -/
def GuardedBy (g : Graph) (node : Node) (guard : Guard) : Prop :=
  ∃ edge ∈ node.controls, g.valueAt? edge.source = some guard.condition ∧
    edge.polarity = guard.polarity

theorem Registered.map_guardOf?_guardEdges (h : g.Registered) {guards : Guards} {bucket : Nat}
    (known : ∀ guard, guards.find? bucket = some guard → (g.nodeId? guard.condition).isSome) :
    (g.guardEdges guards bucket).map g.guardOf? = (guards.find? bucket).toList.map some := by
  unfold guardEdges
  cases hguard : guards.find? bucket with
  | none => rfl
  | some guard =>
      obtain ⟨m, hm⟩ := Option.isSome_iff_exists.mp (known guard hguard)
      simp [guardOf?, hm, (h _ m).mp hm]

/-- A tracked instruction depends on the guard of its block, and no other value on any. -/
theorem exists_guards_of_ofKernel (wf : k.WellFormed) (h : ofKernel k widths = .ok g) :
    ∃ guards, Guards.ofKernel k (numbered k) = .ok guards ∧
      ∀ (n : NodeId) (node : Node), g.nodes[n.index]? = some node →
        (∀ i b, k.Tracks node.value i → k.StandsIn node.value b →
          node.controls.map g.guardOf? = (guards.find? (b.index + 1)).toList.map some) ∧
        ((∀ i, ¬ k.Tracks node.value i) → node.controls = []) := by
  obtain ⟨guards, feeds, hguards, -, swept, filled⟩ := filled_of_ofKernel wf h
  have hr := swept.registered
  refine ⟨guards, hguards, fun n node hn => ?_⟩
  have hnode := hr.nodeId?_of_getElem? hn
  have hcontrols : g.controlsOf n = node.controls := by simp [controlsOf, hn]
  rw [← hcontrols]
  constructor
  · -- tracked: the guard of the block was applied when the instruction was visited
    rintro i b t ⟨block, hb, hv⟩
    have hscheduled := Kernel.mem_schedule.mpr ⟨b.index, block, hb, hv, rfl⟩
    rw [filled.guarded hscheduled t hnode]
    refine hr.map_guardOf?_guardEdges fun guard hguard => ?_
    obtain ⟨-, os, -, hos, -⟩ := swept.linked (wf.mem_instructions.mpr ⟨i, t.known⟩) t
    exact (filled.nodes _).mpr ⟨_, hscheduled, i, os, t, hos, by simp [hguard]⟩
  · exact fun untracked => filled.bare hnode fun _ => untracked

/-- **A tracked instruction depends on the last guard of its block** and on no other. -/
theorem controls_of_tracked (wf : k.WellFormed) (h : ofKernel k widths = .ok g)
    (hn : g.nodes[n.index]? = some node) (t : k.Tracks node.value i)
    (stands : k.StandsIn node.value b) : node.controls.length ≤ 1 ∧
      ∀ o, (∃ edge ∈ node.controls, g.guardOf? edge = o) ↔
        ∃ m guard, k.LastGuard b m guard ∧ some guard = o := by
  obtain ⟨guards, hguards, hcontrols⟩ := exists_guards_of_ofKernel wf h
  have hmap := (hcontrols n node hn).1 i b t stands
  constructor
  · have hlength := congrArg List.length hmap
    rw [List.length_map, List.length_map] at hlength
    rw [hlength]
    cases guards.find? (b.index + 1) <;> simp
  · intro o
    rw [← List.mem_map, hmap, List.mem_map, exists_comm]
    refine exists_congr fun guard => ?_
    rw [Option.mem_toList, Guards.find?_ofKernel_iff hguards, exists_and_right]

end Graph

namespace Kernel

variable {name : String} {script : List Step} {k : Kernel}

theorem exists_standsIn {v : ValueId} (h : v ∈ k.instructions) : ∃ b, k.StandsIn v b := by
  obtain ⟨block, hblock, hv⟩ := List.mem_flatMap.mp h
  obtain ⟨n, hn⟩ := Array.mem_iff_getElem?.mp (Array.mem_toList_iff.mp hblock)
  exact ⟨⟨n⟩, block, hn, hv⟩

/-- **Control edges are sound.** A node has one at most. It has one exactly if it stands for a
tracked instruction of a block that a branch leads to, and then for the last guard of that block. -/
theorem control_edges_sound (built : Kernel.ofScript? name script = some k) {widths : Widths}
    {g : Graph} (h : Graph.ofKernel k widths = .ok g) {n : Nat} {node : Node}
    (hn : g.nodes[n]? = some node) :
    node.controls.length ≤ 1 ∧
    (node.controls ≠ [] ↔ ∃ i b m guard, k.Tracks node.value i ∧ k.StandsIn node.value b ∧
      k.LeadsTo m guard b) ∧
    ∀ edge ∈ node.controls, ∃ b m guard, k.StandsIn node.value b ∧ k.LastGuard b m guard ∧
      g.valueAt? edge.source = some guard.condition ∧ edge.polarity = guard.polarity := by
  have wf := ofScript?_wellFormed built
  by_cases tracked : ∃ i, k.Tracks node.value i
  · obtain ⟨i, t⟩ := tracked
    obtain ⟨b, stands⟩ := exists_standsIn (wf.mem_instructions.mpr ⟨i, t.known⟩)
    obtain ⟨hlength, hguards⟩ := Graph.controls_of_tracked wf h (n := ⟨n⟩) hn t stands
    have sound (edge : ControlEdge) (hedge : edge ∈ node.controls) : ∃ m guard,
        k.LastGuard b m guard ∧ some guard = g.guardOf? edge :=
      (hguards _).mp ⟨edge, hedge, rfl⟩
    refine ⟨hlength, ⟨fun hne => ?_, ?_⟩, fun edge hedge => ?_⟩
    · obtain ⟨edge, hedge⟩ := List.exists_mem_of_ne_nil _ hne
      obtain ⟨m, guard, hlast, -⟩ := sound edge hedge
      exact ⟨i, b, m, guard, t, stands, hlast.leads⟩
    · -- where a branch leads to the block, some guard is its last, and there is an edge for it
      rintro ⟨j, c, m, guard, tj, standsIn, hleads⟩
      obtain ⟨l, other, hlast⟩ := exists_lastGuard hleads
      obtain ⟨edge, hedge, -⟩ :=
        ((Graph.controls_of_tracked wf h (n := ⟨n⟩) hn tj standsIn).2 _).mpr ⟨l, other, hlast, rfl⟩
      exact List.ne_nil_of_mem hedge
    · obtain ⟨m, guard, hlast, hguard⟩ := sound edge hedge
      exact ⟨b, m, guard, stands, hlast, Graph.guardOf?_eq_some_iff.mp hguard.symm⟩
  · -- what is not tracked has no control edges
    have hnone : node.controls = [] := by
      obtain ⟨_, -, hcontrols⟩ := Graph.exists_guards_of_ofKernel wf h
      exact (hcontrols ⟨n⟩ node hn).2 (not_exists.mp tracked)
    refine ⟨by simp [hnone], ⟨fun h => absurd hnone h, ?_⟩, by simp [hnone]⟩
    rintro ⟨i, b, m, guard, t, -⟩
    exact absurd ⟨i, t⟩ tracked

/-- Something is done if one of two comparisons holds: both branches lead to its block. -/
def eitherScript : List Step :=
  [.param "x" (.int 8), .constant 0 8, .block "entry", .block "then", .block "else", .block "exit",
    .moveTo ⟨0⟩, .compare .sgt ⟨0⟩ ⟨1⟩ "positive", .branchIf ⟨2⟩ ⟨1⟩ ⟨2⟩, .moveTo ⟨1⟩,
    .binary .add ⟨0⟩ ⟨0⟩ "y", .branch ⟨3⟩, .moveTo ⟨2⟩, .compare .slt ⟨0⟩ ⟨1⟩ "negative",
    .branchIf ⟨6⟩ ⟨1⟩ ⟨3⟩, .moveTo ⟨3⟩, .ret none]

def either : Kernel := (Kernel.ofScript? "either" eitherScript).getD (.empty "either")

/-- The sum depends on the second comparison, in the third block, though its node is there before
that of the comparison. -/
theorem control_edges_sound_either :
    Kernel.ofScript? "either" eitherScript = some either ∧
      ∃ g node edge, Graph.ofKernel either (either.uniform 8) = .ok g ∧
        g.nodes[3]? = some node ∧ node.value = ⟨4⟩ ∧ node.controls = [edge] ∧
        g.valueAt? edge.source = some ⟨6⟩ ∧
        ∃ b m guard, either.StandsIn ⟨4⟩ b ∧ either.LastGuard b m guard ∧
          g.valueAt? edge.source = some guard.condition ∧ edge.polarity = guard.polarity := by
  have built : Kernel.ofScript? "either" eitherScript = some either := rfl
  have hshape : (Graph.ofKernel either (either.uniform 8)).toOption.bind (fun g =>
      g.nodes[3]?.map fun node => (node.value, node.controls, g.valueAt? ⟨4⟩)) =
        some (⟨4⟩, [⟨⟨4⟩, .whenTrue, 0⟩], some ⟨6⟩) := by decide +kernel
  cases hg : Graph.ofKernel either (either.uniform 8) with
  | error => simp [hg, Except.toOption] at hshape
  | ok g =>
      simp only [hg, Except.toOption, Option.bind_some] at hshape
      obtain ⟨node, hnode, hshape⟩ := Option.map_eq_some_iff.mp hshape
      obtain ⟨hvalue, hshape⟩ := Prod.mk.inj hshape
      obtain ⟨hcontrols, hsource⟩ := Prod.mk.inj hshape
      obtain ⟨-, -, sound⟩ := control_edges_sound built hg hnode
      rw [hcontrols, hvalue] at sound
      exact ⟨built, g, node, _, rfl, hnode, hvalue, hcontrols, hsource,
        sound _ List.mem_cons_self⟩

/-- **A guard reaches what it guards exactly if it is the last one of the block.** The instructions
of a block depend on the last branch that leads there, and on no earlier one. So a guard is sure to
reach them where no other one leads to the block. -/
theorem guard_reaches_iff (built : Kernel.ofScript? name script = some k) {overrides : Overrides}
    {a : Analysis} (analyzed : k.analyze overrides = .ok a) {n : Nat} {guard : Guard} {b : BlockId}
    (leads : k.LeadsTo n guard b) {v : ValueId} {i : Instruction} (t : k.Tracks v i)
    (stands : k.StandsIn v b) : ∃ node, a.graph.node? v = some node ∧
      (a.graph.GuardedBy node guard ↔ ∃ m, k.LastGuard b m guard) ∧
      ((∀ m other, k.LeadsTo m other b → other = guard) → a.graph.GuardedBy node guard) := by
  have wf := ofScript?_wellFormed built
  have made := ofKernel_of_analyze analyzed
  obtain ⟨-, -, -, -, swept, -⟩ := Graph.filled_of_ofKernel wf made
  obtain ⟨m, -, hm, -⟩ := swept.linked (wf.mem_instructions.mpr ⟨i, t.known⟩) t
  obtain ⟨node, hn, rfl⟩ := Option.map_eq_some_iff.mp ((swept.registered v m).mp hm)
  have hiff : a.graph.GuardedBy node guard ↔ ∃ m, k.LastGuard b m guard := by
    simp only [Graph.GuardedBy, ← Graph.guardOf?_eq_some_iff]
    rw [(Graph.controls_of_tracked wf made hn t stands).2]
    simp only [Option.some.injEq, exists_eq_right]
  refine ⟨node, by rw [Graph.node?, hm]; exact hn, hiff, fun alone => hiff.mpr ?_⟩
  -- there is a last guard, and there is no other than this one
  obtain ⟨l, other, hlast⟩ := exists_lastGuard leads
  exact ⟨l, alone l other hlast.leads ▸ hlast⟩

/-- The first comparison guards the sum as well, but a later branch leads there too: the edge is
that of the second comparison, and the first one has none. -/
theorem guard_reaches_iff_either :
    Kernel.ofScript? "either" eitherScript = some either ∧
      ∃ a i node, either.analyze .empty = .ok a ∧ either.LeadsTo 0 ⟨⟨2⟩, .whenTrue⟩ ⟨1⟩ ∧
        either.Tracks ⟨4⟩ i ∧ either.StandsIn ⟨4⟩ ⟨1⟩ ∧ a.graph.node? ⟨4⟩ = some node ∧
        a.graph.GuardedBy node ⟨⟨6⟩, .whenTrue⟩ ∧ ¬ a.graph.GuardedBy node ⟨⟨2⟩, .whenTrue⟩ ∧
        ¬ ∃ m, either.LastGuard ⟨1⟩ m ⟨⟨2⟩, .whenTrue⟩ := by
  have built : Kernel.ofScript? "either" eitherScript = some either := rfl
  have hshape : (either.analyze .empty).toOption.bind (fun a => (a.graph.node? ⟨4⟩).map
      fun node => (node.controls, a.graph.valueAt? ⟨4⟩)) =
        some ([⟨⟨4⟩, .whenTrue, 0⟩], some ⟨6⟩) := by decide +kernel
  have hleads : either.LeadsTo 0 ⟨⟨2⟩, .whenTrue⟩ ⟨1⟩ :=
    ⟨_, rfl, ⟨3⟩, ⟨.condBr, [⟨2⟩], none, [⟨1⟩, ⟨2⟩]⟩, by decide +kernel, by decide +kernel, rfl, rfl⟩
  have htracks : either.Tracks ⟨4⟩ ⟨.add, [⟨0⟩, ⟨0⟩], none, []⟩ := by
    refine ⟨by decide +kernel, rfl, ?_⟩
    have hop : either.opcode? ⟨4⟩ = some .add := by decide +kernel
    have husers : either.usersOf ⟨4⟩ = [] := by decide +kernel
    intro h
    cases h with
    | address hgep => simp [hop] at hgep
    | user _ _ hu => simp [husers] at hu
  have hstands : either.StandsIn ⟨4⟩ ⟨1⟩ := ⟨_, rfl, by decide +kernel⟩
  cases analyzed : either.analyze .empty with
  | error => simp [analyzed, Except.toOption] at hshape
  | ok a =>
      simp only [analyzed, Except.toOption, Option.bind_some] at hshape
      obtain ⟨node, hnode, hshape⟩ := Option.map_eq_some_iff.mp hshape
      obtain ⟨hcontrols, hsource⟩ := Prod.mk.inj hshape
      obtain ⟨node', hnode', hiff, -⟩ := guard_reaches_iff built analyzed hleads htracks hstands
      obtain rfl := Option.some.inj (hnode.symm.trans hnode')
      have hbare : ¬ a.graph.GuardedBy node ⟨⟨2⟩, .whenTrue⟩ := by
        simp [Graph.GuardedBy, hcontrols, hsource]
      refine ⟨built, a, _, node, rfl, hleads, htracks, hstands, hnode, ?_, hbare, ?_⟩
      · simp [Graph.GuardedBy, hcontrols, hsource]
      · rwa [← hiff]

end Kernel

end Datapath
