import Datapath.Proofs.Graph.Numbering
import Datapath.Proofs.Run
import Mathlib.Data.List.Forall2

/-!
# Nodes and their registry

A graph is *registered* if its registry leads from every value to the one node that stands for it.
A registered graph grows by nodes for values that have none, and by edges between nodes that are
there, and stays registered.

`Graph.Gains g g' n targets` is the view of such growth that the lemmas on construction use: every
value keeps its node, the node `n` takes data from the nodes `targets` in addition, and all other
nodes take what they took before.
-/

namespace Datapath.Graph

variable {g g' g'' : Graph} {v o : ValueId} {n m : NodeId}

/-! ## Views -/

def valueAt? (g : Graph) (n : NodeId) : Option ValueId := (g.nodes[n.index]?).map (·.value)

def usesOf (g : Graph) (n : NodeId) : List NodeId :=
  ((g.nodes[n.index]?).map (·.uses)).getD []

/-- The registry leads from every value to the one node that stands for it. -/
def Registered (g : Graph) : Prop := ∀ v n, g.nodeId? v = some n ↔ g.valueAt? n = some v

/-- No two values have the same node. -/
theorem Registered.value_unique (h : g.Registered) (hv : g.nodeId? v = some n)
    (ho : g.nodeId? o = some n) : v = o := by
  rw [h v n] at hv
  rw [h o n] at ho
  exact Option.some.inj (hv.symm.trans ho)

theorem Registered.nodeId?_of_getElem? (h : g.Registered) {node : Node}
    (hn : g.nodes[n.index]? = some node) : g.nodeId? node.value = some n := by
  rw [h, valueAt?, hn]
  rfl

theorem lt_size_of_valueAt? (h : g.valueAt? n = some v) : n.index < g.nodes.size := by
  obtain ⟨node, hnode, -⟩ := Option.map_eq_some_iff.mp h
  exact (Array.getElem?_eq_some_iff.mp hnode).1

theorem usesOf_of_valueAt?_eq_none (h : g.valueAt? n = none) : g.usesOf n = [] := by
  rw [usesOf, Option.map_eq_none_iff.mp h]
  rfl

theorem registered_numbered (k : Kernel) : (numbered k).Registered := by
  intro v n
  simp [valueAt?]

/-! ## What growing does to the views -/

/-- A node is added at the end. -/
theorem getElem?_addNode (g : Graph) (node : Node) (n : NodeId) :
    (g.addNode node).1.nodes[n.index]? =
      if n.index = g.nodes.size then some node else g.nodes[n.index]? :=
  Array.getElem?_push

theorem nodeId?_addNode (g : Graph) (node : Node) (v : ValueId) :
    (g.addNode node).1.nodeId? v =
      if node.value = v then some ⟨g.nodes.size⟩ else g.nodeId? v :=
  Table.find?_insert ..

/-- Both sorts of edges are entered in the record of one node. -/
theorem getElem?_modify_node (nodes : Array Node) (f : Node → Node) (n m : NodeId) :
    (nodes.modify n.index f)[m.index]? =
      (nodes[m.index]?).map fun node => if m = n then f node else node := by
  rw [Array.getElem?_modify]
  by_cases h : m = n
  · rw [if_pos (by rw [h])]
    simp [h]
  · have hne : n.index ≠ m.index := fun e => h (NodeId.ext e.symm)
    rw [if_neg hne]
    simp [h]

@[simp] theorem nodeId?_addUse (g : Graph) (source target : NodeId) (v : ValueId) :
    (g.addUse source target).nodeId? v = g.nodeId? v := rfl

@[simp] theorem valueAt?_addUse (g : Graph) (source target m : NodeId) :
    (g.addUse source target).valueAt? m = g.valueAt? m := by
  show ((g.nodes.modify _ _)[m.index]?).map _ = _
  rw [getElem?_modify_node, Option.map_map]
  congr 1
  funext node
  by_cases h : m = source <;> simp [h]

/-- Uses are recorded in the order in which they are added. -/
theorem usesOf_addUse_self (h : g.valueAt? n = some v) (target : NodeId) :
    (g.addUse n target).usesOf n = g.usesOf n ++ [target] := by
  obtain ⟨node, hnode, -⟩ := Option.map_eq_some_iff.mp h
  show (((g.nodes.modify _ _)[n.index]?).map _).getD [] = _
  rw [getElem?_modify_node, usesOf, hnode]
  simp

theorem usesOf_addUse_of_ne (h : m ≠ n) (target : NodeId) :
    (g.addUse n target).usesOf m = g.usesOf m := by
  show (((g.nodes.modify _ _)[m.index]?).map _).getD [] = _
  rw [getElem?_modify_node]
  simp [h, usesOf]

@[simp] theorem nodeId?_addControl (g : Graph) (n : NodeId) (edge : ControlEdge) (v : ValueId) :
    (g.addControl n edge).nodeId? v = g.nodeId? v := rfl

@[simp] theorem valueAt?_addControl (g : Graph) (n m : NodeId) (edge : ControlEdge) :
    (g.addControl n edge).valueAt? m = g.valueAt? m := by
  show ((g.nodes.modify _ _)[m.index]?).map _ = _
  rw [getElem?_modify_node, Option.map_map]
  congr 1
  funext node
  by_cases h : m = n <;> simp [h]

@[simp] theorem usesOf_addControl (g : Graph) (n m : NodeId) (edge : ControlEdge) :
    (g.addControl n edge).usesOf m = g.usesOf m := by
  show (((g.nodes.modify _ _)[m.index]?).map _).getD [] = _
  rw [getElem?_modify_node, Option.map_map]
  congr 2
  funext node
  by_cases h : m = n <;> simp [h]

/-! ## Growth -/

def Linked (g : Graph) : List ValueId → List NodeId → Prop :=
  List.Forall₂ fun o m => g.nodeId? o = some m

/-- Every value of `g` keeps its node in `g'`, the node `n` has the uses `targets` in addition, and
no other node has other uses than before. -/
structure Gains (g g' : Graph) (n : NodeId) (targets : List NodeId) : Prop where
  registered : g'.Registered
  keeps : ∀ {v m}, g.nodeId? v = some m → g'.nodeId? v = some m
  uses_self : g'.usesOf n = g.usesOf n ++ targets
  uses_other : ∀ {m}, m ≠ n → g'.usesOf m = g.usesOf m

/-- Links to nodes survive growth, since no value changes its node. -/
theorem Linked.mono {os : List ValueId} {ms targets : List NodeId} (h : g.Linked os ms)
    (gains : Gains g g' n targets) : g'.Linked os ms :=
  List.Forall₂.imp (fun _ _ => gains.keeps) h

namespace Gains

variable {targets more : List NodeId}

theorem refl (h : g.Registered) (n : NodeId) : Gains g g n [] where
  registered := h
  keeps := id
  uses_self := (List.append_nil _).symm
  uses_other _ := rfl

/-- Growth in steps: the uses of the node are gained one after the other. -/
theorem trans (h : Gains g g' n targets) (h' : Gains g' g'' n more) :
    Gains g g'' n (targets ++ more) where
  registered := h'.registered
  keeps hv := h'.keeps (h.keeps hv)
  uses_self := by rw [h'.uses_self, h.uses_self, List.append_assoc]
  uses_other hm := by rw [h'.uses_other hm, h.uses_other hm]

/-- No node loses its value. -/
theorem valueAt? (h : Gains g g' n targets) (before : g.Registered)
    (hm : g.valueAt? m = some v) : g'.valueAt? m = some v := by
  rw [← before v m] at hm
  rw [← h.registered v m]
  exact h.keeps hm

end Gains

/-- A node for a value that has none keeps the graph registered. -/
theorem registered_addNode (h : g.Registered) {node : Node} (fresh : g.nodeId? node.value = none) :
    (g.addNode node).1.Registered := by
  intro v n
  rw [nodeId?_addNode, valueAt?, getElem?_addNode]
  by_cases hn : n.index = g.nodes.size
  · -- the new node: its value had none before, so only the new entry leads to it
    have hout : g.nodeId? v ≠ some n := by
      intro hv
      rw [h v n] at hv
      exact absurd (lt_size_of_valueAt? hv) (by omega)
    obtain rfl : n = ⟨g.nodes.size⟩ := NodeId.ext hn
    by_cases hv : node.value = v <;> simp [hv, hout]
  · -- an old node: the value of the new one has no part in it
    have hne : (⟨g.nodes.size⟩ : NodeId) ≠ n := fun e => hn (e ▸ rfl)
    rw [if_neg hn]
    by_cases hv : node.value = v
    · -- an old node for the value would contradict that it had none
      have hout : g.valueAt? n ≠ some v := by
        intro hout
        rw [← h v n, ← hv, fresh] at hout
        cases hout
      rw [if_pos hv]
      exact ⟨fun e => absurd (Option.some.inj e) hne, fun e => absurd e hout⟩
    · rw [if_neg hv]
      exact h v n

/-- A node that is added without uses gives no node more uses, the new one included. -/
theorem gains_addNode (h : g.Registered) {node : Node} (fresh : g.nodeId? node.value = none)
    (bare : node.uses = []) (n : NodeId) : Gains g (g.addNode node).1 n [] := by
  have huses : ∀ m, (g.addNode node).1.usesOf m = g.usesOf m := by
    intro m
    rw [usesOf, getElem?_addNode]
    split
    · next hm =>
      -- the new node has no uses, and before it was there none were read for it
      rw [usesOf, Array.getElem?_eq_none (by omega)]
      exact bare
    · rfl
  refine ⟨registered_addNode h fresh, ?_, ?_, fun _ => huses _⟩
  · intro v m hv
    rw [nodeId?_addNode, if_neg]
    · exact hv
    · -- the new value had no node to keep
      rintro rfl
      rw [fresh] at hv
      cases hv
  · rw [huses, List.append_nil]

theorem registered_addUse (h : g.Registered) (source target : NodeId) :
    (g.addUse source target).Registered := by
  intro v n
  rw [nodeId?_addUse, valueAt?_addUse]
  exact h v n

theorem registered_addControl (h : g.Registered) (n : NodeId) (edge : ControlEdge) :
    (g.addControl n edge).Registered := by
  intro v m
  rw [nodeId?_addControl, valueAt?_addControl]
  exact h v m

/-- An edge is the one use that its source gains. -/
theorem gains_addUse (h : g.Registered) (hn : g.nodeId? v = some n) (target : NodeId) :
    Gains g (g.addUse n target) n [target] where
  registered := registered_addUse h n target
  keeps := id
  uses_self := usesOf_addUse_self ((h v n).mp hn) target
  uses_other hm := usesOf_addUse_of_ne hm target

/-- Control edges are kept apart from uses. -/
theorem gains_addControl (h : g.Registered) (n m : NodeId) (edge : ControlEdge) :
    Gains g (g.addControl m edge) n [] where
  registered := registered_addControl h m edge
  keeps := id
  uses_self := by rw [usesOf_addControl, List.append_nil]
  uses_other _ := usesOf_addControl ..

end Datapath.Graph
