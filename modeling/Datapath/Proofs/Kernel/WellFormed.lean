import Datapath.Proofs.Kernel.Growth
import Mathlib.Data.List.Nodup

/-!
# Well-formed kernels

A kernel put together call by call has more structure than its type says. `Kernel.WellFormed`
collects what the analyses rest on:

* operands have *smaller numbers* than their user, so a walk over operands goes down;
* every instruction stands in the block that it names, and a block lists its own instructions in
  ascending order, so each instruction occurs *once* in the text;
* parameters and arguments are the same values, and so are globals and global variables.

`ofScript?_wellFormed` is the result: scripts build well-formed kernels and no others. The proof
looks at one change at a time, for each field.
-/

namespace Datapath.Kernel

/-- What holds of a kernel that was put together call by call. -/
structure WellFormed (k : Kernel) : Prop where
  operand_lt : ∀ {v i o}, k.instruction? v = some i → o ∈ i.operands → o.index < v.index
  placed : ∀ {v x i b}, k.value? v = some x → x.kind = .instruction i b →
    ∃ block, k.blocks[b.index]? = some block ∧ v ∈ block.instructions
  listed : ∀ {b : BlockId} {block v}, k.blocks[b.index]? = some block → v ∈ block.instructions →
    ∃ x i, k.value? v = some x ∧ x.kind = .instruction i b
  ascending : ∀ {b : BlockId} {block}, k.blocks[b.index]? = some block →
    block.instructions.Pairwise (·.index < ·.index)
  mem_params : ∀ {v}, v ∈ k.params ↔ ∃ x, k.value? v = some x ∧ x.isArgument = true
  mem_globals : ∀ {v}, v ∈ k.globals ↔ ∃ x, k.value? v = some x ∧ x.isGlobal = true

/-! ## Sorts of values -/

theorem instruction?_of_value? {k : Kernel} {v : ValueId} {x : Value} (h : k.value? v = some x) :
    k.instruction? v = x.instruction? := by
  rw [instruction?, h]
  rfl

theorem opcode?_of_value? {k : Kernel} {v : ValueId} {x : Value} (h : k.value? v = some x) :
    k.opcode? v = x.opcode? := by
  rw [opcode?, instruction?_of_value? h]
  rfl

theorem exists_kind_of_instruction? {k : Kernel} {v : ValueId} {i : Instruction}
    (h : k.instruction? v = some i) : ∃ x b, k.value? v = some x ∧ x.kind = .instruction i b := by
  obtain ⟨x, hx, hxi⟩ := Option.bind_eq_some_iff.mp h
  cases hk : x.kind <;> simp_all [Value.instruction?]

/-- Arguments and globals are no instructions. -/
theorem instruction?_of_isBase {k : Kernel} {v : ValueId} {x : Value} (h : k.value? v = some x)
    (hx : x.isBase = true) : k.instruction? v = none := by
  rw [instruction?_of_value? h]
  cases hk : x.kind <;>
    simp_all [Value.isBase, Value.isArgument, Value.isGlobal, Value.instruction?]

theorem instruction?_of_constant {k : Kernel} {v : ValueId} {x : Value} {c : Int}
    (h : k.value? v = some x) (hx : x.kind = .constant c) : k.instruction? v = none := by
  rw [instruction?_of_value? h, Value.instruction?, hx]

theorem isBase_ne_constant {x : Value} {c : Int} (h : x.isBase = true) : x.kind ≠ .constant c := by
  intro hk
  simp [Value.isBase, Value.isArgument, Value.isGlobal, hk] at h

/-! ## How a new value shows -/

theorem value?_lt {k : Kernel} {v : ValueId} {x : Value} (h : k.value? v = some x) :
    v.index < k.size :=
  (value?_isSome k v).mp (by rw [h]; rfl)

theorem instruction?_lt {k : Kernel} {v : ValueId} {i : Instruction}
    (h : k.instruction? v = some i) : v.index < k.size := by
  obtain ⟨x, hx, -⟩ := Option.bind_eq_some_iff.mp h
  exact value?_lt hx

theorem value?_push_of_lt {k : Kernel} {x : Value} {v : ValueId} (h : v.index < k.size) :
    (k.push x).value? v = k.value? v := by
  rw [value?_push, if_neg (by omega)]

theorem value?_push_self (k : Kernel) (x : Value) : (k.push x).value? ⟨k.size⟩ = some x := by
  rw [value?_push, if_pos rfl]

/-- A value of the grown kernel is the new one or was there before. -/
theorem value?_push_cases {k : Kernel} {x y : Value} {v : ValueId}
    (h : (k.push x).value? v = some y) : (v = ⟨k.size⟩ ∧ y = x) ∨ k.value? v = some y := by
  rw [value?_push] at h
  split at h
  · next hv =>
    exact .inl ⟨ValueId.ext hv, (Option.some.inj h).symm⟩
  · exact .inr h

theorem value?_push_of_some {k : Kernel} {x y : Value} {v : ValueId} (h : k.value? v = some y) :
    (k.push x).value? v = some y := by
  rw [value?_push_of_lt (value?_lt h), h]

@[simp] theorem params_push (k : Kernel) (x : Value) : (k.push x).params = k.params := rfl

@[simp] theorem globals_push (k : Kernel) (x : Value) : (k.push x).globals = k.globals := rfl

@[simp] theorem params_append (k : Kernel) (b : BlockId) (v : ValueId) :
    (k.append b v).params = k.params := rfl

@[simp] theorem globals_append (k : Kernel) (b : BlockId) (v : ValueId) :
    (k.append b v).globals = k.globals := rfl

/-- Appending changes one block, by one instruction at its end. -/
theorem blocks_append_cases {k : Kernel} {b : BlockId} {w : ValueId} {n : Nat} {block : Block}
    (h : (k.append b w).blocks[n]? = some block) :
    k.blocks[n]? = some block ∧ n ≠ b.index ∨
      ∃ old, n = b.index ∧ k.blocks[n]? = some old ∧
        block = { old with instructions := old.instructions ++ [w] } := by
  change (k.blocks.modify b.index _)[n]? = some block at h
  rw [Array.getElem?_modify] at h
  split at h
  · next hn =>
    obtain ⟨old, hold, rfl⟩ := Option.map_eq_some_iff.mp h
    exact .inr ⟨old, hn.symm, hold, rfl⟩
  · next hn => exact .inl ⟨h, fun e => hn e.symm⟩

/-- Appending takes no instruction away, and the block appended to has the new one. -/
theorem blocks_append_of_some {k : Kernel} {b : BlockId} {w : ValueId} {n : Nat} {block : Block}
    (h : k.blocks[n]? = some block) :
    ∃ block', (k.append b w).blocks[n]? = some block' ∧
      (∀ v ∈ block.instructions, v ∈ block'.instructions) ∧
      (n = b.index → w ∈ block'.instructions) := by
  change ∃ block', (k.blocks.modify b.index _)[n]? = some block' ∧ _
  rw [Array.getElem?_modify, h]
  split
  · next hn =>
    refine ⟨_, rfl, ?_, ?_⟩
    · intro v hv
      exact List.mem_append_left _ hv
    · intro _
      exact List.mem_append_right _ (List.mem_singleton.mpr rfl)
  · next hn => exact ⟨block, rfl, fun v hv => hv, fun e => absurd e.symm hn⟩

/-! ## One change at a time -/

namespace WellFormed

variable {k : Kernel}

/-- The empty kernel has nothing that could be out of place. -/
theorem start (name : String) : (Kernel.empty name).WellFormed := by
  have hvalue : ∀ v, (Kernel.empty name).value? v = none := fun _ => rfl
  have hblock : ∀ n : Nat, (Kernel.empty name).blocks[n]? = none := fun _ => rfl
  constructor
  · intro v i o hi
    simp [instruction?, hvalue] at hi
  · intro v x i b hx
    simp [hvalue] at hx
  · intro b block v hb
    simp [hblock] at hb
  · intro b block hb
    simp [hblock] at hb
  · intro v
    show v ∈ [] ↔ _
    simp [hvalue]
  · intro v
    show v ∈ [] ↔ _
    simp [hvalue]

/-- Only values of the kernel stand in blocks. -/
theorem lt_size_of_listed (h : k.WellFormed) {n : Nat} {block : Block} {v : ValueId}
    (hb : k.blocks[n]? = some block) (hv : v ∈ block.instructions) : v.index < k.size := by
  obtain ⟨x, i, hx, -⟩ := h.listed (b := ⟨n⟩) hb hv
  exact value?_lt hx

/-- Operands are values of the kernel. -/
theorem operand_lt_size (h : k.WellFormed) {v o : ValueId} {i : Instruction}
    (hi : k.instruction? v = some i) (ho : o ∈ i.operands) : o.index < k.size :=
  Nat.lt_trans (h.operand_lt hi ho) (instruction?_lt hi)

/-- A list of all values of a sort is kept up to date by entering what is new of that sort. -/
theorem mem_push_iff {sort : Value → Bool} {listed listed' : List ValueId} {x : Value}
    (before : ∀ {v}, v ∈ listed ↔ ∃ y, k.value? v = some y ∧ sort y = true)
    (entered : ∀ v, v ∈ listed' ↔ v ∈ listed ∨ v = ⟨k.size⟩ ∧ sort x = true) {v : ValueId} :
    v ∈ listed' ↔ ∃ y, (k.push x).value? v = some y ∧ sort y = true := by
  rw [entered, before]
  constructor
  · rintro (⟨y, hy, hsort⟩ | ⟨rfl, hsort⟩)
    · exact ⟨y, value?_push_of_some hy, hsort⟩
    · exact ⟨x, value?_push_self k x, hsort⟩
  · rintro ⟨y, hy, hsort⟩
    rcases value?_push_cases hy with ⟨rfl, rfl⟩ | hy
    · exact .inr ⟨rfl, hsort⟩
    · exact .inl ⟨y, hy, hsort⟩

/-- A parameter, a global or a constant: only the list of its sort has to be kept. -/
theorem push_data (h : k.WellFormed) {x : Value} {params globals : List ValueId}
    (hx : x.instruction? = none)
    (hp : ∀ v, v ∈ params ↔ v ∈ k.params ∨ v = ⟨k.size⟩ ∧ x.isArgument = true)
    (hg : ∀ v, v ∈ globals ↔ v ∈ k.globals ∨ v = ⟨k.size⟩ ∧ x.isGlobal = true) :
    WellFormed { k.push x with params := params, globals := globals } where
  operand_lt := by
    intro v i o hi ho
    obtain ⟨y, hy, hyi⟩ := Option.bind_eq_some_iff.mp hi
    rcases value?_push_cases hy with ⟨-, rfl⟩ | hy
    · -- the new value is no instruction
      rw [hx] at hyi
      cases hyi
    · exact h.operand_lt (Option.bind_eq_some_iff.mpr ⟨y, hy, hyi⟩) ho
  placed := by
    intro v y i b hy hk
    rcases value?_push_cases hy with ⟨-, rfl⟩ | hy
    · simp [Value.instruction?, hk] at hx
    · exact h.placed hy hk
  listed := by
    intro b block v hb hv
    obtain ⟨y, i, hy, hk⟩ := h.listed hb hv
    exact ⟨y, i, value?_push_of_some hy, hk⟩
  ascending := h.ascending
  mem_params := mem_push_iff h.mem_params hp
  mem_globals := mem_push_iff h.mem_globals hg

/-- A new block is empty, and the numbers of the others do not change. -/
theorem push_block (h : k.WellFormed) (name : String) :
    WellFormed { k with blocks := k.blocks.push ⟨name, []⟩ } where
  operand_lt := h.operand_lt
  placed := by
    intro v x i b hx hk
    obtain ⟨block, hb, hv⟩ := h.placed hx hk
    refine ⟨block, ?_, hv⟩
    have hlt := (Array.getElem?_eq_some_iff.mp hb).1
    show (k.blocks.push _)[b.index]? = _
    rw [Array.getElem?_push, if_neg (by omega), hb]
  listed := by
    intro b block v hb hv
    change (k.blocks.push _)[b.index]? = _ at hb
    rw [Array.getElem?_push] at hb
    split at hb
    · cases hb
      -- nothing stands in the new block
      cases hv
    · exact h.listed hb hv
  ascending := by
    intro b block hb
    change (k.blocks.push _)[b.index]? = _ at hb
    rw [Array.getElem?_push] at hb
    split at hb
    · cases hb
      exact .nil
    · exact h.ascending hb
  mem_params := h.mem_params
  mem_globals := h.mem_globals

/-- An instruction is put at the end of its block, and its operands were there before it. -/
theorem push_instruction (h : k.WellFormed) {i : Instruction} {b : BlockId} {block : Block}
    {name : Option String} {type : Ty} (there : k.blocks[b.index]? = some block)
    (known : ∀ o ∈ i.operands, o.index < k.size) :
    WellFormed ((k.push ⟨name, type, .instruction i b⟩).append b ⟨k.size⟩) where
  operand_lt := by
    intro v j o hj ho
    obtain ⟨y, hy, hyj⟩ := Option.bind_eq_some_iff.mp hj
    rcases value?_push_cases hy with ⟨rfl, rfl⟩ | hy
    · cases hyj
      -- the new instruction: its operands were found before
      exact known o ho
    · exact h.operand_lt (Option.bind_eq_some_iff.mpr ⟨y, hy, hyj⟩) ho
  placed := by
    intro v y j c hy hk
    rcases value?_push_cases hy with ⟨rfl, rfl⟩ | hy
    · -- the new instruction stands in the block it was put in
      cases hk
      obtain ⟨block', hb, -, hw⟩ := blocks_append_of_some (b := b) (w := ⟨k.size⟩) there
      exact ⟨block', hb, hw rfl⟩
    · obtain ⟨old, hold, hv⟩ := h.placed hy hk
      obtain ⟨block', hb, hsub, -⟩ := blocks_append_of_some (b := b) (w := ⟨k.size⟩) hold
      exact ⟨block', hb, hsub v hv⟩
  listed := by
    intro c block' v hb hv
    rcases blocks_append_cases hb with ⟨hb, -⟩ | ⟨old, hc, hold, rfl⟩
    · obtain ⟨y, j, hy, hk⟩ := h.listed hb hv
      exact ⟨y, j, value?_push_of_some hy, hk⟩
    · -- in that block, what was listed before or the new instruction
      rcases List.mem_append.mp hv with hv | hv
      · obtain ⟨y, j, hy, hk⟩ := h.listed hold hv
        exact ⟨y, j, value?_push_of_some hy, hk⟩
      · obtain rfl := List.mem_singleton.mp hv
        obtain rfl : c = b := BlockId.ext hc
        exact ⟨_, i, value?_push_self k _, rfl⟩
  ascending := by
    intro c block' hb
    rcases blocks_append_cases hb with ⟨hb, -⟩ | ⟨old, hc, hold, rfl⟩
    · exact h.ascending hb
    · show (old.instructions ++ [_]).Pairwise _
      rw [List.pairwise_append]
      refine ⟨h.ascending hold, List.pairwise_singleton _ _, ?_⟩
      -- the new instruction has a larger number than any value before it
      intro v hv w hw
      obtain rfl := List.mem_singleton.mp hw
      exact h.lt_size_of_listed hold hv
  mem_params := mem_push_iff h.mem_params fun v => by simp [Value.isArgument]
  mem_globals := mem_push_iff h.mem_globals fun v => by simp [Value.isGlobal]

/-- **Well-formedness survives each change.** -/
theorem grow {b c : Builder} (h : b.kernel.WellFormed) (hg : b.Grows c) :
    c.kernel.WellFormed := by
  cases hg with
  | same => exact h
  | moveTo target => exact h
  | param name type =>
      exact h.push_data rfl (fun v => by simp [Value.isArgument])
        (fun v => by simp [Value.isGlobal])
  | global name type =>
      exact h.push_data rfl (fun v => by simp [Value.isArgument])
        (fun v => by simp [Value.isGlobal])
  | constant value bits fresh =>
      exact h.push_data rfl (fun v => by simp [Value.isArgument])
        (fun v => by simp [Value.isGlobal])
  | block name => exact h.push_block name
  | instruction i b block name type there isOpen known => exact h.push_instruction there known

end WellFormed

/-- **Scripts build well-formed kernels.** -/
theorem ofScript?_wellFormed {name : String} {script : List Step} {k : Kernel}
    (h : Kernel.ofScript? name script = some k) : k.WellFormed :=
  ofScript?_induction (.start name) WellFormed.grow h

/-! ## The text of a well-formed kernel -/

namespace WellFormed

variable {k : Kernel}

/-- The text of a kernel has all its instructions. -/
theorem mem_instructions (h : k.WellFormed) {v : ValueId} :
    v ∈ k.instructions ↔ ∃ i, k.instruction? v = some i := by
  unfold instructions
  rw [List.mem_flatMap]
  constructor
  · rintro ⟨block, hmem, hv⟩
    obtain ⟨n, hn⟩ := List.mem_iff_getElem?.mp hmem
    obtain ⟨x, i, hx, hk⟩ := h.listed (b := ⟨n⟩) (by simpa using hn) hv
    exact ⟨i, by simp [instruction?, hx, Value.instruction?, hk]⟩
  · rintro ⟨i, hi⟩
    obtain ⟨x, hx, hxi⟩ := Option.bind_eq_some_iff.mp hi
    cases hk : x.kind with
    | instruction j b =>
        obtain ⟨block, hb, hv⟩ := h.placed hx hk
        exact ⟨block, Array.mem_toList_iff.mpr (Array.mem_of_getElem? hb), hv⟩
    | _ => simp [Value.instruction?, hk] at hxi

/-- Each instruction occurs once in the text: two blocks have no instruction in common, since each
instruction names the block that it stands in. -/
theorem nodup_instructions (h : k.WellFormed) : k.instructions.Nodup := by
  unfold instructions
  rw [List.nodup_flatMap]
  constructor
  · -- within a block numbers ascend
    intro block hmem
    obtain ⟨n, hn⟩ := List.mem_iff_getElem?.mp hmem
    have hasc := h.ascending (b := ⟨n⟩) (by simpa using hn)
    exact hasc.imp fun hlt e => by simp [e] at hlt
  · -- an instruction in two blocks would name both
    rw [List.pairwise_iff_getElem]
    intro m n hm hn hlt v hvm hvn
    obtain ⟨x, i, hx, hxm⟩ := h.listed (b := ⟨m⟩) (by simp) hvm
    obtain ⟨y, j, hy, hyn⟩ := h.listed (b := ⟨n⟩) (by simp) hvn
    obtain rfl : x = y := Option.some.inj (hx.symm.trans hy)
    rw [hxm] at hyn
    cases hyn
    omega

end WellFormed

end Datapath.Kernel
