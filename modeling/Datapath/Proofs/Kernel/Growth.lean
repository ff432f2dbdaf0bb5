import Datapath.Kernel.Script
import Datapath.Proofs.Run

/-!
# What a builder call does

`Builder.Grows` lists, once, the ways in which one call can change a builder: not at all, by the
block that comes next, or by one parameter, global, constant, block or instruction. A constant is
only added if the table does not have it, and is entered there. An instruction only goes to a block
that is there and still open, and its operands exist.

* `Step.proper_run` — a successful call grows the builder in one of these ways, and a call that
  fails leaves it as it was.
* `runAll_induction`, `ofScript?_induction` — so what holds at the start and survives growth holds
  of every builder, and of every kernel, that a script comes to.
-/

namespace Datapath

namespace Builder

variable {α β : Type}

/-- The change that one successful call makes to a builder. -/
inductive Grows : Builder → Builder → Prop
  | same (b : Builder) : Grows b b
  | moveTo (b : Builder) (target : BlockId) : Grows b { b with current := some target }
  | param (b : Builder) (name : String) (type : Ty) :
      Grows b { b with kernel :=
        { b.kernel.push ⟨some name, type, .argument b.kernel.params.length⟩ with
          params := b.kernel.params ++ [⟨b.kernel.size⟩] } }
  | global (b : Builder) (name : String) (type : Ty) :
      Grows b { b with kernel :=
        { b.kernel.push ⟨some name, type, .global⟩ with
          globals := b.kernel.globals ++ [⟨b.kernel.size⟩] } }
  | constant (b : Builder) (value : Int) (bits : Nat)
      (fresh : b.constants.find? (value, bits) = none) :
      Grows b { b with
        kernel := b.kernel.push ⟨none, .int bits, .constant value⟩
        constants := b.constants.insert (value, bits) ⟨b.kernel.size⟩ }
  | block (b : Builder) (name : String) :
      Grows b { b with
        kernel := { b.kernel with blocks := b.kernel.blocks.push ⟨name, []⟩ } }
  | instruction (b : Builder) (i : Instruction) (target : BlockId) (block : Block)
      (name : Option String) (type : Ty)
      (there : b.kernel.blocks[target.index]? = some block)
      (isOpen : b.kernel.terminator? block = none)
      (known : ∀ o ∈ i.operands, o.index < b.kernel.size) :
      Grows b { b with kernel :=
        (b.kernel.push ⟨name, type, .instruction i target⟩).append target ⟨b.kernel.size⟩ }

/-! ## Two sorts of action -/

/-- Whatever comes of it, the builder stays as it is. -/
structure Reads (act : Build α) : Prop where
  of_ok : ∀ {b a b'}, act b = .ok a b' → b' = b
  of_error : ∀ {b fault b'}, act b = .error fault b' → b' = b

/-- If it succeeds, the builder has grown by one change; if it fails, nothing has changed. -/
structure Proper (act : Build α) : Prop where
  grows : ∀ {b a b'}, act b = .ok a b' → Grows b b'
  unchanged : ∀ {b fault b'}, act b = .error fault b' → b' = b

theorem reads_get : Reads get := ⟨fun h => by cases h; rfl, nofun⟩

theorem reads_pure (a : α) : Reads (pure a : Build α) := ⟨fun h => by cases h; rfl, nofun⟩

theorem reads_throw (fault : Fault) : Reads (throw fault : Build α) :=
  ⟨nofun, fun h => by cases h; rfl⟩

theorem reads_reject (why : Rejection) : Reads (reject why : Build α) :=
  ⟨nofun, fun h => by cases h; rfl⟩

/-- To change nothing is one of the changes allowed. -/
theorem Reads.proper {act : Build α} (h : Reads act) : Proper act :=
  ⟨fun ha => h.of_ok ha ▸ .same _, h.of_error⟩

/-- Two lookups in a row change nothing either. -/
theorem Reads.bind {act : Build α} {next : α → Build β} (h : Reads act)
    (hn : ∀ a, Reads (next a)) : Reads (act >>= next) where
  of_ok := by
    intro b c b' hr
    obtain ⟨a, r, ha, hr⟩ := Run.bind_eq_ok.mp hr
    rw [(hn a).of_ok hr, h.of_ok ha]
  of_error := by
    intro b fault b' hr
    rcases Run.bind_eq_error.mp hr with ha | ⟨a, r, ha, hr⟩
    · -- the first lookup fails
      exact h.of_error ha
    · rw [(hn a).of_error hr, h.of_ok ha]

/-- Reading first and then making a change is proper, since only the change can leave a trace. -/
theorem Reads.bind_proper {act : Build α} {next : α → Build β} (h : Reads act)
    (hn : ∀ a, Proper (next a)) : Proper (act >>= next) where
  grows := by
    intro b c b' hr
    obtain ⟨a, r, ha, hr⟩ := Run.bind_eq_ok.mp hr
    rw [← h.of_ok ha]
    exact (hn a).grows hr
  unchanged := by
    intro b fault b' hr
    rcases Run.bind_eq_error.mp hr with ha | ⟨a, r, ha, hr⟩
    · -- the lookup fails, before anything is changed
      exact h.of_error ha
    · rw [(hn a).unchanged hr, h.of_ok ha]

theorem Proper.map {act : Build α} {f : α → β} (h : Proper act) : Proper (f <$> act) where
  grows := by
    intro b c b' hr
    obtain ⟨a, ha, -⟩ := Run.map_eq_ok.mp hr
    exact h.grows ha
  unchanged := by
    intro b fault b' hr
    exact h.unchanged (Run.map_eq_error.mp hr)

/-! ## What is looked up before a change -/

theorem reads_typeOf (o : ValueId) : Reads (typeOf o) := by
  apply reads_get.bind
  intro b
  cases b.kernel.value? o with
  | none => exact reads_reject _
  | some x => exact reads_pure x.type

theorem reads_discard_typeOf (o : ValueId) : Reads (discard (typeOf o)) where
  of_ok := by
    intro b u b' hr
    obtain ⟨t, ht, -⟩ := Run.map_eq_ok.mp hr
    exact (reads_typeOf o).of_ok ht
  of_error := by
    intro b fault b' hr
    exact (reads_typeOf o).of_error (Run.map_eq_error.mp hr)

/-- The operands of an instruction of any sort are looked up one by one. -/
theorem reads_forM_typeOf (operands : List ValueId) :
    Reads (operands.forM fun o => discard (typeOf o)) := by
  induction operands with
  | nil => exact reads_pure _
  | cons o rest ih => exact (reads_discard_typeOf o).bind fun _ => ih

/-- Whichever way the search for an open block ends, the builder is as it was. -/
theorem reads_openBlock (opcode : Opcode) : Reads (openBlock opcode) := by
  apply reads_get.bind
  intro b
  cases b.current with
  | none => exact reads_reject _
  | some current =>
      dsimp only
      cases b.kernel.blocks[current.index]? with
      | none => exact reads_throw _
      | some block =>
          dsimp only
          cases b.kernel.terminator? block with
          | none => exact reads_pure current
          | some last => exact reads_reject _

/-- The block that is handed out is there, and it is open. -/
theorem openBlock_eq_ok {opcode : Opcode} {b b' : Builder} {current : BlockId}
    (h : openBlock opcode b = .ok current b') :
    ∃ block, b.kernel.blocks[current.index]? = some block ∧
      b.kernel.terminator? block = none := by
  unfold openBlock at h
  obtain ⟨c, r, hget, h⟩ := Run.bind_eq_ok.mp h
  obtain ⟨rfl, rfl⟩ := Run.get_eq_ok.mp hget
  cases hc : b.current with
  | none => simp [hc] at h
  | some c =>
      simp only [hc] at h
      cases hb : b.kernel.blocks[c.index]? with
      | none => simp [hb] at h
      | some block =>
          simp only [hb] at h
          cases ht : b.kernel.terminator? block with
          | some last => simp [ht] at h
          | none =>
              simp only [ht, Run.pure_eq_ok] at h
              obtain ⟨rfl, -⟩ := h
              -- the only way that does not end in a rejection or out of range
              exact ⟨block, hb, ht⟩

/-- If no operand is unknown then all are there. -/
theorem lt_size_of_firstUnknown?_eq_none {k : Kernel} {operands : List ValueId}
    (h : firstUnknown? k operands = none) : ∀ o ∈ operands, o.index < k.size := by
  intro o ho
  have := List.find?_eq_none.mp h o ho
  simpa using this

/-! ## The changes -/

theorem proper_param (name : String) (type : Ty) : Proper (param name type) :=
  ⟨fun h => by cases h; exact .param _ name type, nofun⟩

theorem proper_global (name : String) (type : Ty) : Proper (global name type) :=
  ⟨fun h => by cases h; exact .global _ name type, nofun⟩

theorem proper_block (name : String) : Proper (block name) :=
  ⟨fun h => by cases h; exact .block _ name, nofun⟩

theorem proper_moveTo (target : BlockId) : Proper (moveTo target) :=
  ⟨fun h => by cases h; exact .moveTo _ target, nofun⟩

/-- A constant is added and entered in the table, or the table has it. -/
theorem proper_constant (value : Int) (bits : Nat) : Proper (constant value bits) where
  grows := by
    intro b v b' h
    obtain ⟨c, r, hget, h⟩ := Run.bind_eq_ok.mp h
    obtain ⟨rfl, rfl⟩ := Run.get_eq_ok.mp hget
    cases hf : b.constants.find? (value, bits) with
    | some w =>
        rw [hf] at h
        cases h
        -- found in the table
        exact .same b
    | none =>
        rw [hf] at h
        cases h
        -- new: added to the kernel and entered in the table
        exact .constant b value bits hf
  unchanged := by
    intro b fault b' h
    rcases Run.bind_eq_error.mp h with h | ⟨c, r, -, h⟩
    · exact reads_get.of_error h
    · cases hf : c.constants.find? (value, bits) with
      | some w => rw [hf] at h; cases h
      | none => rw [hf] at h; cases h

/-- An instruction goes to the block that was found open, once its operands were found. -/
theorem proper_emit (i : Instruction) (type : Ty) (name : String) : Proper (emit i type name) where
  grows := by
    intro b v b' h
    obtain ⟨current, r, hopen, hrest⟩ := Run.bind_eq_ok.mp h
    obtain rfl := (reads_openBlock i.opcode).of_ok hopen
    obtain ⟨block, hblock, hterm⟩ := openBlock_eq_ok hopen
    obtain ⟨c, r', hget, hrest⟩ := Run.bind_eq_ok.mp hrest
    obtain ⟨rfl, rfl⟩ := Run.get_eq_ok.mp hget
    cases hu : firstUnknown? r.kernel i.operands with
    | some o => simp [hu] at hrest
    | none =>
        rw [hu] at hrest
        cases hrest
        exact .instruction r i current block _ type hblock hterm
          (lt_size_of_firstUnknown?_eq_none hu)
  unchanged := by
    intro b fault b' h
    rcases Run.bind_eq_error.mp h with hopen | ⟨current, r, hopen, hrest⟩
    · -- no open block
      exact (reads_openBlock i.opcode).of_error hopen
    · obtain rfl := (reads_openBlock i.opcode).of_ok hopen
      rcases Run.bind_eq_error.mp hrest with hget | ⟨c, r', hget, hrest⟩
      · -- to read the builder cannot fail
        exact reads_get.of_error hget
      · obtain ⟨rfl, rfl⟩ := Run.get_eq_ok.mp hget
        -- an operand is unknown, or nothing fails
        cases hu : firstUnknown? r.kernel i.operands with
        | some o =>
            rw [hu] at hrest
            cases hrest
            rfl
        | none =>
            rw [hu] at hrest
            cases hrest

/-- Loads and stores go on once an address was found to be a pointer. -/
theorem proper_ofPointee {type : Ty} {why : Rejection} {next : Ty → Build α}
    (hn : ∀ element, Proper (next element)) :
    Proper (match type.pointee? with
      | none => reject why
      | some element => next element) := by
  cases type.pointee? with
  | none => exact (reads_reject why).proper
  | some element => exact hn element

/-- An address computation looks up its base and the type it ends at before it is put in. -/
theorem proper_elementPointer (base : ValueId) (indices : List ValueId) (name : String) :
    Proper (elementPointer base indices name) := by
  apply (reads_typeOf base).bind_proper
  intro type
  apply proper_ofPointee
  intro whole
  cases whole.within (indices.length - 1) with
  | error t => exact (reads_reject _).proper
  | ok element => exact proper_emit _ _ _

end Builder

namespace Step

open Builder

/-- **Each call is proper**: it makes one change, or fails and changes nothing. -/
theorem proper_run (s : Step) : Proper s.run := by
  cases s with
  | param name type => exact (proper_param name type).map
  | global name type => exact (proper_global name type).map
  | constant value bits => exact (proper_constant value bits).map
  | block name => exact (proper_block name).map
  | moveTo target => exact (proper_moveTo target).map
  | binary opcode left right name =>
      exact ((reads_typeOf left).bind_proper fun _ => proper_emit _ _ _).map
  | compare predicate left right name =>
      exact ((reads_typeOf left).bind_proper fun _ => proper_emit _ _ _).map
  | elementPointer base indices name => exact (proper_elementPointer base indices name).map
  | load address name =>
      exact ((reads_typeOf address).bind_proper fun _ =>
        proper_ofPointee fun _ => proper_emit _ _ _).map
  | store value address =>
      exact ((reads_typeOf value).bind_proper fun _ => (reads_typeOf address).bind_proper fun _ =>
        proper_ofPointee fun _ => proper_emit _ _ _).map
  | cast opcode value bits name =>
      exact ((reads_typeOf value).bind_proper fun _ => proper_emit _ _ _).map
  | branch target => exact (proper_emit _ _ _).map
  | branchIf condition whenTrue whenFalse =>
      exact ((reads_typeOf condition).bind_proper fun _ => proper_emit _ _ _).map
  | switch value default cases =>
      exact ((reads_typeOf value).bind_proper fun _ => proper_emit _ _ _).map
  | ret value =>
      cases value with
      | none => exact (proper_emit _ _ _).map
      | some v => exact ((reads_typeOf v).bind_proper fun _ => proper_emit _ _ _).map
  | instruction opcode operands type name =>
      exact ((reads_forM_typeOf operands).bind_proper fun _ => proper_emit _ _ _).map

/-- **What survives growth survives a script.** The induction is on the script, and a rejected step
leaves the builder that the next one starts from. -/
theorem runAll_induction {motive : Builder → Prop}
    (step : ∀ {b c : Builder}, motive b → Grows b c → motive c) :
    ∀ {script : List Step} {b b' : Builder}, motive b → (runAll script b).2 = some b' → motive b'
  | [], b, b', hb, h => by
      cases h
      exact hb
  | s :: rest, b, b', hb, h => by
      rw [runAll] at h
      cases hr : s.run b with
      | ok answer c =>
          rw [hr] at h
          exact runAll_induction step (step hb ((proper_run s).grows hr)) h
      | error fault c =>
          rw [hr] at h
          -- a script goes on after a rejection, but not once it is out of range
          cases fault with
          | outOfRange index => cases h
          | rejected why =>
              rw [(proper_run s).unchanged hr] at h
              exact runAll_induction step hb h

end Step

/-- **Induction over construction**: what holds of the empty kernel and survives every change holds
of every kernel that a script builds. -/
theorem Kernel.ofScript?_induction {motive : Kernel → Prop} {name : String}
    (start : motive (.empty name))
    (step : ∀ {b c : Builder}, motive b.kernel → b.Grows c → motive c.kernel)
    {script : List Step} {k : Kernel} (h : Kernel.ofScript? name script = some k) : motive k := by
  obtain ⟨b, hb, rfl⟩ := Option.map_eq_some_iff.mp h
  exact Step.runAll_induction (motive := fun b => motive b.kernel) step (b := .start name) start hb

end Datapath
