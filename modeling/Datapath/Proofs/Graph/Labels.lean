import Datapath.Graph.Label
import Datapath.Proofs.Acceptance
import Datapath.Proofs.Address.Tracing
import Datapath.Proofs.Written.Mentioned

/-!
# Labels of loads and stores

The label of a load or a store has the text of its address. An analysis that succeeds has checked
two parts of a computed address (`Kernel.Checked`): the trace that leads to the base pointer, and
what the indices of the address are computed from. What stands there has a text, but for unsigned
quotients.

The text mentions more than these parts: the indices of an address computation further down, the
other operands where a pointer is moved by arithmetic, the address of an index that is loaded.
Nothing checks them. So an analysed kernel may have an access without a label, and it is what stands
in these parts that decides (`Kernel.label_isOk_iff`), unless the text mentions an unsigned quotient:
then the label is always refused (`Kernel.label_eq_error_of_udiv`).
-/

namespace Datapath

open Relation (ReflTransGen)

/-! ## What is checked -/

namespace Kernel

variable {k : Kernel} {a v w : ValueId}

/-- The parts of an address that are checked when its chain is recorded. -/
inductive Checked (k : Kernel) (a : ValueId) : ValueId → Prop
  | traced {w : ValueId} (way : ReflTransGen k.TracesOn a w) : Checked k a w
  | computed {i : Instruction} {x w : ValueId} (known : k.instruction? a = some i)
      (index : x ∈ i.indices) (chain : ReflTransGen k.ComputesFrom (k.underlying x) w) :
      Checked k a w

/-- **What is checked has a text**, unless it is an unsigned quotient. -/
theorem Checked.not_unwritable (h : k.Checked a w) (wf : k.WellFormed) (ha : a.index < k.size)
    (traceable : k.Traceable a) (quotient : k.opcode? w ≠ some .udiv) : ¬ k.Unwritable w := by
  rintro ⟨j, hj, unwritable⟩
  cases h with
  | traced way =>
      -- on the trace: the pointer at its end is no instruction, and what leads on has a text
      obtain ⟨p, hp⟩ := traceable.base
      obtain ⟨trace, x, hx, base⟩ := traces_of_basePointer hp
      rcases (traces_of_part trace hx base way).cases_head with rfl | ⟨o, on, -⟩
      · rw [instruction?_of_isBase hx base] at hj
        cases hj
      · cases on with
        | element known opcode =>
            obtain rfl := Option.some.inj (hj.symm.trans known)
            rw [opcode] at unwritable
            cases unwritable
        | operand known opcode =>
            obtain rfl := Option.some.inj (hj.symm.trans known)
            rcases opcode with opcode | opcode | opcode <;>
            · rw [opcode] at unwritable
              cases unwritable
  | @computed i x _ known index chain =>
      -- computed from an index, which was flattened, so nothing there is misplaced
      have hlt := wf.underlying_lt known (Instruction.mem_operands_of_mem_indices index)
      have fine := (exists_flatten_iff wf (Nat.lt_trans hlt ha)).mp (traceable.indices known index)
        w chain
      rw [misplaced_iff hj] at fine
      rw [opcode?, hj] at quotient
      cases hop : j.opcode <;> simp_all [Opcode.isWritable, Opcode.isArithmetic]

theorem GoesTo.lt_size (goes : k.GoesTo v a) (wf : k.WellFormed) : a.index < k.size := by
  obtain ⟨i, hi, -, ha, -⟩ := goes
  exact wf.operand_lt_size hi (Instruction.mem_operands_of_address? ha)

/-- An analysed kernel has the operands that its rules ask for, and its addresses can be traced. -/
theorem acceptable_of_analyze (h : k.Consistent) {overrides : Overrides} {a : Analysis}
    (analyzed : k.analyze overrides = .ok a) : k.Acceptable overrides :=
  acceptable_of_not_refused fun _ => not_refused_of_analyze h analyzed

end Kernel

/-! ## Labels -/

namespace Graph

variable {g : Graph} {k : Kernel} {n : NodeId} {node : Node} {a : ValueId}

/-- The label of a load or a store is put around the text of its address. -/
theorem exists_label_of_goesTo (hn : g.nodes[n.index]? = some node)
    (goes : k.GoesTo node.value a) : ∃ around : String → String,
      g.label k n = do return around (← k.written a) := by
  obtain ⟨i, hi, accesses, ha, -⟩ := goes
  obtain ⟨x, b, hx, hk⟩ := Kernel.exists_kind_of_instruction? hi
  have hlabel : g.label k n = instructionLabel k node.value x i := by
    simp only [label, Graph.node, hn, bind, Except.bind, Kernel.value_eq_ok.mpr hx, hk]
  have hplace : place k node.value i = k.written a := by simp only [place, ha]
  rw [hlabel]
  rcases Opcode.isAccess_iff.mp accesses with hop | hop
  · exact ⟨fun text => s!" [ load: {text}]", by simp only [instructionLabel, hop, hplace]⟩
  · exact ⟨fun text => s!"[ store: {text}]", by simp only [instructionLabel, hop, hplace]⟩

end Graph

namespace Kernel

/-- **Which accesses can be labelled.** In an analysed kernel, the label of a load or a store that
goes to a computed address is there exactly if whatever the text of the address mentions outside of
the parts that are checked has a text; if the label is refused, the refusal names something there
that has none. This is said of addresses whose texts mention no unsigned quotient. -/
theorem label_isOk_iff {name : String} {script : List Step} {k : Kernel}
    (built : Kernel.ofScript? name script = some k) {overrides : Overrides} {a : Analysis}
    (analyzed : k.analyze overrides = .ok a) {n : NodeId} {node : Node}
    (hn : a.graph.nodes[n.index]? = some node) {address : ValueId}
    (goes : k.GoesTo node.value address)
    (signed : ∀ w, ReflTransGen k.Mentions address w → k.opcode? w ≠ some .udiv) :
    ((∃ text, a.graph.label k n = .ok text) ↔
      ∀ w, ReflTransGen k.Mentions address w → ¬ k.Checked address w → ¬ k.Unwritable w) ∧
    ∀ fault, a.graph.label k n = .error fault →
      ∃ w i, ReflTransGen k.Mentions address w ∧ ¬ k.Checked address w ∧
        k.instruction? w = some i ∧ i.opcode.isWritable = false ∧
        fault = .rejected (.unsupportedOpcode k.name w i.opcode) := by
  have h := ofScript?_consistent built
  have wf := h.toWellFormed
  have acceptable := acceptable_of_analyze h analyzed
  have complete : k.Complete := acceptable.operands
  have hsize : address.index < k.size := goes.lt_size wf
  have fine : ∀ w, ReflTransGen k.Mentions address w → k.Checked address w → ¬ k.Unwritable w :=
    fun w way checked =>
      checked.not_unwritable wf hsize (acceptable.traceable goes) (signed w way)
  obtain ⟨around, hlabel⟩ := Graph.exists_label_of_goesTo hn goes
  rw [hlabel]
  constructor
  · constructor
    · rintro ⟨text, htext⟩ w way -
      obtain ⟨target, htarget, -⟩ := Outcome.bind_eq_ok.mp htext
      exact (exists_written_iff wf complete hsize).mp ⟨target, htarget⟩ w way
    · intro unchecked
      -- what is checked has a text in any case, and the rest by assumption
      obtain ⟨target, htarget⟩ := (exists_written_iff wf complete hsize).mpr fun w way => by
        by_cases checked : k.Checked address w
        · exact fine w way checked
        · exact unchecked w way checked
      exact ⟨around target, by rw [htarget]; rfl⟩
  · intro fault hfault
    rcases Outcome.bind_eq_error.mp hfault with hfault | ⟨target, -, hfault⟩
    · obtain ⟨w, i, way, hw, unwritable, rfl⟩ :=
        unwritable_of_written wf complete hsize hfault
      exact ⟨w, i, way, fun checked => fine w way checked ⟨i, hw, unwritable⟩, hw, unwritable, rfl⟩
    · cases hfault

/-- An element is loaded at an index that is loaded from another array. -/
def permuteScript : List Step :=
  [.param "p" (.pointer (.int 8)), .param "q" (.pointer (.int 8)), .param "i" (.int 8),
    .block "entry", .moveTo ⟨0⟩, .elementPointer ⟨1⟩ [⟨2⟩] "slot", .load ⟨3⟩ "key",
    .elementPointer ⟨0⟩ [⟨4⟩] "element", .load ⟨5⟩ "x", .ret none]

def permute : Kernel := (Kernel.ofScript? "permute" permuteScript).getD (.empty "permute")

/-- The address of the index is not checked, but it has a text. -/
theorem label_isOk_iff_permute :
    Kernel.ofScript? "permute" permuteScript = some permute ∧
      ∃ a n node, permute.analyze .empty = .ok a ∧ a.graph.nodes[NodeId.index n]? = some node ∧
        permute.GoesTo node.value ⟨5⟩ ∧
        (∀ w, ReflTransGen permute.Mentions ⟨5⟩ w → permute.opcode? w ≠ some .udiv) ∧
        a.graph.label permute n = .ok " [ load: p[q[i]]]" ∧
        ∀ w, ReflTransGen permute.Mentions ⟨5⟩ w → ¬ permute.Checked ⟨5⟩ w →
          ¬ permute.Unwritable w := by
  have built : Kernel.ofScript? "permute" permuteScript = some permute := rfl
  have hload : permute.instruction? ⟨6⟩ = some ⟨.load, [⟨5⟩], none, []⟩ := by decide +kernel
  have haddress : permute.opcode? ⟨5⟩ = some .getElementPtr := by decide +kernel
  have signed : ∀ w i, permute.instruction? w = some i → i.opcode ≠ .udiv := by
    rw [forall_instruction_iff]
    decide +kernel
  have hshape : (permute.analyze .empty).toOption.map (fun a =>
      (a.graph.nodes[3]?.map (·.value), (a.graph.label permute ⟨3⟩).toOption)) =
        some (some ⟨6⟩, some " [ load: p[q[i]]]") := by decide +kernel
  obtain ⟨a, analyzed, hshape⟩ := Outcome.exists_of_toOption_map hshape
  simp only [Prod.mk.injEq] at hshape
  obtain ⟨hnode, htext⟩ := hshape
  obtain ⟨node, hn, hvalue⟩ := Option.map_eq_some_iff.mp hnode
  have hlabel := Outcome.toOption_eq_some.mp htext
  have goes : permute.GoesTo node.value ⟨5⟩ := hvalue ▸ ⟨_, hload, rfl, rfl, haddress⟩
  have hsigned : ∀ w, ReflTransGen permute.Mentions ⟨5⟩ w →
      permute.opcode? w ≠ some .udiv := by
    intro w _ hop
    obtain ⟨i, hi, opcode⟩ := Option.map_eq_some_iff.mp hop
    exact signed w i hi opcode
  obtain ⟨hiff, -⟩ := label_isOk_iff built analyzed (n := ⟨3⟩) hn goes hsigned
  exact ⟨built, a, ⟨3⟩, node, analyzed, hn, goes, hsigned, hlabel, hiff.mp ⟨_, hlabel⟩⟩

/-! ### Accesses without a label -/

/-- **An unsigned quotient keeps an access from being labelled**, wherever the text of the address
mentions it, also in the parts that are checked. The refusal names something without a text. -/
theorem label_eq_error_of_udiv {name : String} {script : List Step} {k : Kernel}
    (built : Kernel.ofScript? name script = some k) {overrides : Overrides} {a : Analysis}
    (analyzed : k.analyze overrides = .ok a) {n : NodeId} {node : Node}
    (hn : a.graph.nodes[n.index]? = some node) {address w : ValueId}
    (goes : k.GoesTo node.value address) (way : ReflTransGen k.Mentions address w)
    (quotient : k.opcode? w = some .udiv) :
    ∃ u i, ReflTransGen k.Mentions address u ∧ k.instruction? u = some i ∧
      i.opcode.isWritable = false ∧
      a.graph.label k n = .error (.rejected (.unsupportedOpcode k.name u i.opcode)) := by
  have h := ofScript?_consistent built
  have wf := h.toWellFormed
  have complete : k.Complete := (acceptable_of_analyze h analyzed).operands
  have hsize := goes.lt_size wf
  have unwritable : k.Unwritable w := by
    obtain ⟨i, hi, opcode⟩ := Option.map_eq_some_iff.mp quotient
    exact ⟨i, hi, by rw [opcode]; rfl⟩
  obtain ⟨around, hlabel⟩ := Graph.exists_label_of_goesTo hn goes
  rw [hlabel]
  cases htext : k.written address with
  | ok text =>
      -- then everything mentioned would have a text
      exact absurd unwritable ((exists_written_iff wf complete hsize).mp ⟨text, htext⟩ w way)
  | error fault =>
      obtain ⟨u, i, hu, hi, opcode, rfl⟩ := unwritable_of_written wf complete hsize htext
      exact ⟨u, i, hu, hi, opcode, rfl⟩

/-- An element is loaded from a row. The row is found by an index that is widened and cut again. -/
def boardScript : List Step :=
  [.param "p" (.pointer (.int 8)), .param "i" (.int 8), .block "entry", .moveTo ⟨0⟩,
    .cast .zext ⟨1⟩ 16 "wide", .cast .trunc ⟨2⟩ 8 "low", .elementPointer ⟨0⟩ [⟨3⟩] "row",
    .elementPointer ⟨4⟩ [⟨1⟩] "square", .load ⟨5⟩ "x", .ret none]

def board : Kernel := (Kernel.ofScript? "board" boardScript).getD (.empty "board")

/-- One cast is looked through, and then the other has no text. Only the index of the element is
checked, not that of the row, so the kernel is analysed all the same. -/
theorem label_not_ok_board :
    Kernel.ofScript? "board" boardScript = some board ∧
      ∃ a n node, board.analyze .empty = .ok a ∧ a.graph.nodes[NodeId.index n]? = some node ∧
        board.GoesTo node.value ⟨5⟩ ∧ ReflTransGen board.Mentions ⟨5⟩ ⟨2⟩ ∧
        board.opcode? ⟨2⟩ = some .zext ∧ ∀ text, a.graph.label board n ≠ .ok text := by
  have built : Kernel.ofScript? "board" boardScript = some board := rfl
  have hload : board.instruction? ⟨6⟩ = some ⟨.load, [⟨5⟩], none, []⟩ := by decide +kernel
  have hsquare : board.instruction? ⟨5⟩ = some ⟨.getElementPtr, [⟨4⟩, ⟨1⟩], none, []⟩ := by
    decide +kernel
  have hrow : board.instruction? ⟨4⟩ = some ⟨.getElementPtr, [⟨0⟩, ⟨3⟩], none, []⟩ := by
    decide +kernel
  have hcast : board.opcode? ⟨2⟩ = some .zext := by decide +kernel
  have hmentions : ReflTransGen board.Mentions ⟨5⟩ ⟨2⟩ := by
    refine .head ⟨_, hsquare, ⟨4⟩, by decide, ?_⟩ (.single ⟨_, hrow, ⟨3⟩, by decide, ?_⟩)
    · decide +kernel
    · decide +kernel
  have hshape : (board.analyze .empty).toOption.map (fun a =>
      (a.graph.nodes[0]?.map (·.value), (a.graph.label board ⟨0⟩).toOption)) =
        some (some ⟨6⟩, none) := by decide +kernel
  obtain ⟨a, analyzed, hshape⟩ := Outcome.exists_of_toOption_map hshape
  simp only [Prod.mk.injEq] at hshape
  obtain ⟨hnode, htext⟩ := hshape
  obtain ⟨node, hn, hvalue⟩ := Option.map_eq_some_iff.mp hnode
  refine ⟨built, a, ⟨0⟩, node, analyzed, hn, hvalue ▸ ⟨_, hload, rfl, rfl, ?_⟩, hmentions, hcast,
    fun text hlabel => ?_⟩
  · rw [opcode?, hsquare]
    rfl
  · rw [hlabel] at htext
    cases htext

end Kernel

end Datapath
