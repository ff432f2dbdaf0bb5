import Datapath.Proofs.Kernel.Sharing

/-!
# The records of a kernel agree

A kernel writes several things down twice. That `a` is an operand of `b` stands with `b` and in the
use-list of `a`; that `b` stands in a block is said by `b` and by the block; what is a parameter is
known from the value and from the list of parameters. `Kernel.Consistent` adds to
`Kernel.WellFormed` that all of these *agree to the letter*:

* a use-list is what reading all operands in order of creation would give;
* parameters and globals are listed in order of creation, and a parameter knows its place;
* only the last instruction of a block can be a terminator;
* a constant is an integer of some width.

Scripts build consistent kernels, which is shown by one change at a time again. `records_agree` says
all that follows, also from the table of constants that is kept beside the kernel.
-/

namespace Datapath.Kernel

variable {k : Kernel}

/-! ## What a kernel says about its values -/

def operandsOf (k : Kernel) (v : ValueId) : List ValueId := ((k.value? v).map (·.operands)).getD []

def valuesOfSort (k : Kernel) (sort : Value → Bool) : List ValueId :=
  k.ids.filter fun v => (k.value? v).any sort

/-- The users of a value as its users tell: each value once for every operand that is `v`. -/
def readersOf (k : Kernel) (v : ValueId) : List ValueId :=
  k.ids.flatMap fun u => List.replicate ((k.operandsOf u).count v) u

/-- The records of a kernel agree with each other. -/
structure Consistent (k : Kernel) : Prop extends k.WellFormed where
  users_size : k.users.size = k.size
  usersOf_eq : ∀ v, k.usersOf v = k.readersOf v
  terminator_last : ∀ {b : BlockId} {block v o}, k.blocks[b.index]? = some block →
    v ∈ block.instructions.dropLast → k.opcode? v = some o → o.isTerminator = false
  params_eq : k.params = k.valuesOfSort (·.isArgument)
  position : ∀ {n v}, k.params[n]? = some v → ∃ x, k.value? v = some x ∧ x.kind = .argument n
  globals_eq : k.globals = k.valuesOfSort (·.isGlobal)
  constant_type : ∀ {v x c}, k.value? v = some x → x.kind = .constant c →
    ∃ bits, x.type = .int bits

/-- A kernel numbers its values from zero without a gap. -/
theorem mem_ids {v : ValueId} : v ∈ k.ids ↔ v.index < k.size := by
  unfold ids
  rw [List.mem_map]
  constructor
  · rintro ⟨n, hn, rfl⟩
    exact List.mem_range.mp hn
  · intro h
    exact ⟨v.index, List.mem_range.mpr h, rfl⟩

/-- What holds of all instructions can be checked value by value. -/
theorem forall_instruction_iff {P : ValueId → Instruction → Prop} :
    (∀ v i, k.instruction? v = some i → P v i) ↔ ∀ v ∈ k.ids, ∀ i ∈ k.instruction? v, P v i := by
  constructor
  · exact fun h v _ i hi => h v i hi
  · exact fun h v i hi => h v (mem_ids.mpr (instruction?_lt hi)) i hi

theorem ids_push (k : Kernel) (x : Value) : (k.push x).ids = k.ids ++ [⟨k.size⟩] := by
  unfold ids
  rw [size_push, List.range_succ, List.map_append, List.map_singleton]

theorem mem_operandsOf {u v : ValueId} :
    v ∈ k.operandsOf u ↔ ∃ i, k.instruction? u = some i ∧ v ∈ i.operands := by
  unfold operandsOf instruction?
  cases k.value? u with
  | none => simp
  | some x => cases hx : x.instruction? <;> simp [Value.operands, hx]

/-! ## Use-lists -/

/-- A use-list grows by one entry for each time that its value is an operand. -/
theorem getElem?_enterUses (users : Array (List ValueId)) (user : ValueId)
    (operands : List ValueId) (v : ValueId) :
    (enterUses users user operands)[v.index]? =
      users[v.index]?.map (· ++ List.replicate (operands.count v) user) := by
  induction operands generalizing users with
  | nil => simp [enterUses]
  | cons o rest ih =>
      show (enterUses (users.modify o.index (· ++ [user])) user rest)[v.index]? = _
      rw [ih, Array.getElem?_modify]
      by_cases h : o = v
      · -- the first operand is the value
        subst h
        rw [if_pos rfl, Option.map_map, List.count_cons_self, List.replicate_succ]
        congr 1
        funext us
        simp
      · -- it is another one
        have hne : o.index ≠ v.index := fun e => h (ValueId.ext e)
        rw [if_neg hne, List.count_cons_of_ne h]

/-- Entering the uses of a new value extends use-lists, and its own is empty. -/
theorem usersOf_push (hsize : k.users.size = k.size) (x : Value) (v : ValueId) :
    (k.push x).usersOf v = if v.index < k.size
      then k.usersOf v ++ List.replicate (x.operands.count v) ⟨k.size⟩ else [] := by
  show ((enterUses k.users ⟨k.size⟩ x.operands).push [])[v.index]?.getD [] = _
  rw [Array.getElem?_push, size_enterUses, getElem?_enterUses, hsize, usersOf]
  split
  · next h => rw [if_neg (by omega), Option.getD_some]
  · next h =>
    split
    · next hlt =>
      -- a value that was there before
      rw [Array.getElem?_eq_getElem (by omega)]
      rfl
    · next hge =>
      -- no value at all
      rw [Array.getElem?_eq_none (by omega)]
      rfl

theorem operandsOf_push_of_lt {x : Value} {v : ValueId} (h : v.index < k.size) :
    (k.push x).operandsOf v = k.operandsOf v := by
  rw [operandsOf, value?_push_of_lt h, operandsOf]

theorem operandsOf_push_self (k : Kernel) (x : Value) :
    (k.push x).operandsOf ⟨k.size⟩ = x.operands := by
  rw [operandsOf, value?_push_self]
  rfl

/-- A new value reads its operands, and the others read what they read before. -/
theorem readersOf_push (k : Kernel) (x : Value) (v : ValueId) :
    (k.push x).readersOf v = k.readersOf v ++ List.replicate (x.operands.count v) ⟨k.size⟩ := by
  have before : ∀ u ∈ k.ids, List.replicate (((k.push x).operandsOf u).count v) u =
      List.replicate ((k.operandsOf u).count v) u := by
    intro u hu
    rw [operandsOf_push_of_lt (mem_ids.mp hu)]
  unfold readersOf
  rw [ids_push, List.flatMap_append, List.flatMap_congr before, List.flatMap_singleton,
    operandsOf_push_self]

/-- A value is read by the instructions that have it as an operand. -/
theorem mem_readersOf {u v : ValueId} :
    u ∈ k.readersOf v ↔ ∃ i, k.instruction? u = some i ∧ v ∈ i.operands := by
  unfold readersOf
  simp only [List.mem_flatMap, List.mem_replicate, ne_eq, List.count_eq_zero, not_not]
  constructor
  · rintro ⟨w, -, hv, rfl⟩
    exact mem_operandsOf.mp hv
  · rintro ⟨i, hi, hv⟩
    exact ⟨u, mem_ids.mpr (instruction?_lt hi), mem_operandsOf.mpr ⟨i, hi, hv⟩, rfl⟩

/-- Nothing reads a value that is not there. -/
theorem WellFormed.readersOf_eq_nil (h : k.WellFormed) {v : ValueId} (hv : k.size ≤ v.index) :
    k.readersOf v = [] := by
  rw [List.eq_nil_iff_forall_not_mem]
  intro u hu
  obtain ⟨i, hi, ho⟩ := mem_readersOf.mp hu
  have hlt := h.operand_lt hi ho
  have hu := instruction?_lt hi
  omega

/-- Use-lists stay right when a value is added whose operands are there. -/
theorem Consistent.usersOf_push_eq (h : k.Consistent) {x : Value}
    (known : ∀ o ∈ x.operands, o.index < k.size) (v : ValueId) :
    (k.push x).usersOf v = (k.push x).readersOf v := by
  rw [usersOf_push h.users_size, readersOf_push]
  split
  · rw [h.usersOf_eq]
  · next hv =>
    -- the new value itself: it does not occur among its operands
    have fresh : v ∉ x.operands := fun hmem => hv (known v hmem)
    rw [h.readersOf_eq_nil (by omega), List.count_eq_zero_of_not_mem fresh]
    rfl

/-! ## Lists of one sort -/

/-- A new value of the sort comes last. -/
theorem valuesOfSort_push (k : Kernel) (x : Value) (sort : Value → Bool) :
    (k.push x).valuesOfSort sort = k.valuesOfSort sort ++ if sort x then [⟨k.size⟩] else [] := by
  have before : ∀ v ∈ k.ids, ((k.push x).value? v).any sort = (k.value? v).any sort := by
    intro v hv
    rw [value?_push_of_lt (mem_ids.mp hv)]
  unfold valuesOfSort
  rw [ids_push, List.filter_append, List.filter_congr before]
  simp only [List.filter_cons, List.filter_nil, value?_push_self, Option.any_some]

/-! ## One change at a time -/

theorem opcode?_push_of_lt {x : Value} {v : ValueId} (h : v.index < k.size) :
    (k.push x).opcode? v = k.opcode? v := by
  rw [opcode?, instruction?, value?_push_of_lt h, opcode?, instruction?]

namespace Consistent

theorem start (name : String) : (Kernel.empty name).Consistent where
  toWellFormed := .start name
  users_size := rfl
  usersOf_eq := fun _ => rfl
  terminator_last := by
    intro b block v o hb
    have hnone : (Kernel.empty name).blocks[b.index]? = none := rfl
    rw [hnone] at hb
    cases hb
  params_eq := rfl
  position := nofun
  globals_eq := rfl
  constant_type := nofun

/-- A parameter is entered at the place that it names. -/
theorem push_position (h : k.Consistent) {x : Value} (place : ∀ n, x.kind = .argument n →
      n = k.params.length) {n : Nat} {v : ValueId}
    (hn : (k.params ++ if x.isArgument then [⟨k.size⟩] else [])[n]? = some v) :
    ∃ y, (k.push x).value? v = some y ∧ y.kind = .argument n := by
  rw [List.getElem?_append] at hn
  split at hn
  · -- a parameter from before
    obtain ⟨y, hy, hk⟩ := h.position hn
    exact ⟨y, value?_push_of_some hy, hk⟩
  · next hge =>
    -- the place behind them is that of the new value, if it is a parameter
    cases hk : x.kind with
    | argument m =>
        have hm := place m hk
        rw [if_pos (by rw [Value.isArgument, hk]), List.getElem?_singleton] at hn
        split at hn
        · obtain rfl := Option.some.inj hn
          refine ⟨x, value?_push_self k x, ?_⟩
          rw [hk, hm]
          congr 1
          omega
        · cases hn
    | _ => simp [Value.isArgument, hk] at hn

/-- A parameter, a global or a constant leaves the text as it is. -/
theorem push_data (h : k.Consistent) {x : Value} {params globals : List ValueId}
    (wf : WellFormed { k.push x with params := params, globals := globals })
    (hx : x.instruction? = none)
    (hp : params = k.params ++ if x.isArgument then [⟨k.size⟩] else [])
    (place : ∀ n, x.kind = .argument n → n = k.params.length)
    (hg : globals = k.globals ++ if x.isGlobal then [⟨k.size⟩] else [])
    (type : ∀ c, x.kind = .constant c → ∃ bits, x.type = .int bits) :
    Consistent { k.push x with params := params, globals := globals } where
  toWellFormed := wf
  users_size := by simp [push, size, h.users_size]
  usersOf_eq := by
    apply h.usersOf_push_eq
    simp [Value.operands, hx]
  terminator_last := by
    intro b block v o hb hv ho
    have hlt := h.lt_size_of_listed hb (List.dropLast_subset _ hv)
    change (k.push x).opcode? v = some o at ho
    rw [opcode?_push_of_lt hlt] at ho
    exact h.terminator_last hb hv ho
  params_eq := by
    show params = (k.push x).valuesOfSort _
    rw [valuesOfSort_push, hp, h.params_eq]
  position := by
    intro n v hn
    subst hp
    exact h.push_position place hn
  globals_eq := by
    show globals = (k.push x).valuesOfSort _
    rw [valuesOfSort_push, hg, h.globals_eq]
  constant_type := by
    intro v y c hy hk
    rcases value?_push_cases hy with ⟨-, rfl⟩ | hy
    · exact type c hk
    · exact h.constant_type hy hk

/-- A new block is empty, so it ends in nothing. -/
theorem push_block (h : k.Consistent) (name : String) :
    Consistent { k with blocks := k.blocks.push ⟨name, []⟩ } where
  toWellFormed := h.toWellFormed.push_block name
  users_size := h.users_size
  usersOf_eq := h.usersOf_eq
  terminator_last := by
    intro b block v o hb hv ho
    change (k.blocks.push _)[b.index]? = _ at hb
    rw [Array.getElem?_push] at hb
    split at hb
    · cases hb
      cases hv
    · exact h.terminator_last hb hv ho
  params_eq := h.params_eq
  position := h.position
  globals_eq := h.globals_eq
  constant_type := h.constant_type

/-- No instruction of an open block is a terminator: not the last, since the block is open, and not
one before. -/
theorem isTerminator_eq_false_of_open (h : k.Consistent) {b : BlockId} {block : Block}
    (there : k.blocks[b.index]? = some block) (isOpen : k.terminator? block = none)
    {v : ValueId} {o : Opcode} (hv : v ∈ block.instructions) (ho : k.opcode? v = some o) :
    o.isTerminator = false := by
  rcases List.eq_nil_or_concat block.instructions with hnil | ⟨init, last, heq⟩
  · rw [hnil] at hv
    cases hv
  · rw [List.concat_eq_append] at heq
    rw [heq, List.mem_append, List.mem_singleton] at hv
    rcases hv with hv | rfl
    · -- it stands before the last
      apply h.terminator_last there _ ho
      rw [heq, List.dropLast_concat]
      exact hv
    · -- it is the last
      simpa [terminator?, heq, ho] using isOpen

/-- An instruction goes to an open block, so what stood last there is no terminator. -/
theorem push_instruction (h : k.Consistent) {i : Instruction} {b : BlockId} {block : Block}
    {name : Option String} {type : Ty} (there : k.blocks[b.index]? = some block)
    (isOpen : k.terminator? block = none) (known : ∀ o ∈ i.operands, o.index < k.size) :
    Consistent ((k.push ⟨name, type, .instruction i b⟩).append b ⟨k.size⟩) where
  toWellFormed := h.toWellFormed.push_instruction there known
  users_size := by simp [push, append, size, h.users_size]
  usersOf_eq := h.usersOf_push_eq (x := ⟨name, type, .instruction i b⟩) known
  terminator_last := by
    intro c block' v o hb hv ho
    change (k.push _).opcode? v = some o at ho
    rcases blocks_append_cases hb with ⟨hb, -⟩ | ⟨old, hc, hold, rfl⟩
    · -- another block, which is as it was
      rw [opcode?_push_of_lt (h.lt_size_of_listed hb (List.dropLast_subset _ hv))] at ho
      exact h.terminator_last hb hv ho
    · -- before the new instruction stand those of the block that was open
      rw [List.dropLast_concat] at hv
      rw [opcode?_push_of_lt (h.lt_size_of_listed hold hv)] at ho
      obtain rfl : c = b := BlockId.ext hc
      obtain rfl : old = block := Option.some.inj (hold.symm.trans there)
      exact h.isTerminator_eq_false_of_open hold isOpen hv ho
  params_eq := by
    show k.params = (k.push _).valuesOfSort _
    rw [valuesOfSort_push, h.params_eq]
    simp [Value.isArgument]
  position := by
    intro n v hn
    obtain ⟨y, hy, hk⟩ := h.position hn
    exact ⟨y, value?_push_of_some hy, hk⟩
  globals_eq := by
    show k.globals = (k.push _).valuesOfSort _
    rw [valuesOfSort_push, h.globals_eq]
    simp [Value.isGlobal]
  constant_type := by
    intro v y c hy hk
    rcases value?_push_cases hy with ⟨-, rfl⟩ | hy
    · cases hk
    · exact h.constant_type hy hk

/-- **Agreement survives each change.** -/
theorem grow {b c : Builder} (h : b.kernel.Consistent) (hg : b.Grows c) :
    c.kernel.Consistent := by
  have wf := h.toWellFormed.grow hg
  cases hg with
  | same => exact h
  | moveTo target => exact h
  | param name type =>
      refine h.push_data wf rfl rfl ?_ ?_ (by simp)
      · intro n hn
        cases hn
        rfl
      · simp [Value.isGlobal]
  | global name type =>
      refine h.push_data wf rfl ?_ (by simp) rfl (by simp)
      simp [Value.isArgument]
  | constant value bits fresh =>
      refine h.push_data wf rfl ?_ (by simp) ?_ ?_
      · simp [Value.isArgument]
      · simp [Value.isGlobal]
      · intro c _
        exact ⟨bits, rfl⟩
  | block name => exact h.push_block name
  | instruction i b block name type there isOpen known =>
      exact h.push_instruction there isOpen known

end Consistent

/-- Scripts build consistent kernels, whatever calls were rejected on the way. -/
theorem ofScript?_consistent {name : String} {script : List Step} {k : Kernel}
    (built : Kernel.ofScript? name script = some k) : k.Consistent :=
  ofScript?_induction (.start name) Consistent.grow built

/-! ## What the records say -/

/-- The users of a value are the instructions that read it. -/
theorem Consistent.mem_usersOf (h : k.Consistent) {u v : ValueId} :
    u ∈ k.usersOf v ↔ ∃ i, k.instruction? u = some i ∧ v ∈ i.operands := by
  rw [h.usersOf_eq, mem_readersOf]

/-- Users come after what they use. -/
theorem Consistent.user_lt (h : k.Consistent) {u v : ValueId} (hu : u ∈ k.usersOf v) :
    v.index < u.index ∧ u.index < k.size := by
  obtain ⟨i, hi, hv⟩ := h.mem_usersOf.mp hu
  exact ⟨h.operand_lt hi hv, instruction?_lt hi⟩

/-- In a well-formed kernel an instruction stands in the text once. -/
theorem WellFormed.count_instructions (h : k.WellFormed) {v : ValueId} {i : Instruction}
    (hi : k.instruction? v = some i) : k.instructions.count v = 1 :=
  List.count_eq_one_of_mem h.nodup_instructions (h.mem_instructions.mpr ⟨i, hi⟩)

/-- **The records of a kernel that a script builds agree**: operands come before their users and
use-lists are what the operands say; the text has every instruction once, in the block it names, in
ascending order and with terminators only at the ends of blocks; parameters and globals are listed
in order of creation; two constants differ in their integer or in their width; and the builder's
table of constants has exactly those of the kernel. -/
theorem records_agree {name : String} {script : List Step} {k : Kernel}
    (built : Kernel.ofScript? name script = some k) :
    (∀ v i o, k.instruction? v = some i → o ∈ i.operands → o.index < v.index) ∧
    (∀ v, k.usersOf v = k.readersOf v) ∧
    (∀ v x i b, k.value? v = some x → x.kind = .instruction i b →
      k.instructions.count v = 1 ∧
        ∃ block, k.blocks[b.index]? = some block ∧ v ∈ block.instructions) ∧
    (∀ (b : BlockId) block, k.blocks[b.index]? = some block →
      block.instructions.Pairwise (·.index < ·.index) ∧
      (∀ v ∈ block.instructions, ∃ x i, k.value? v = some x ∧ x.kind = .instruction i b) ∧
      ∀ v ∈ block.instructions.dropLast, ∀ o, k.opcode? v = some o → o.isTerminator = false) ∧
    (k.params = k.valuesOfSort (·.isArgument) ∧ k.globals = k.valuesOfSort (·.isGlobal) ∧
      ∀ n v, k.params[n]? = some v → ∃ x, k.value? v = some x ∧ x.kind = .argument n) ∧
    (∀ v w x y c d, v ≠ w → k.value? v = some x → k.value? w = some y → x.kind = .constant c →
      y.kind = .constant d →
      ∃ bits bits', x.type = .int bits ∧ y.type = .int bits' ∧ (c, bits) ≠ (d, bits')) ∧
    ∃ b, (Step.runAll script (.start name)).2 = some b ∧ b.kernel = k ∧
      ∀ value bits v, b.constants.find? (value, bits) = some v ↔
        ∃ x, k.value? v = some x ∧ x.kind = .constant value ∧ x.type = .int bits := by
  have h := ofScript?_consistent built
  obtain ⟨b, run, rfl⟩ := Option.map_eq_some_iff.mp built
  have shared : b.Shared := Step.runAll_shared run
  refine ⟨fun v i o => h.operand_lt, h.usersOf_eq, ?_, ?_, ?_, ?_, b, run, rfl, shared⟩
  · intro v x i b hx hk
    refine ⟨h.toWellFormed.count_instructions (i := i) ?_, h.placed hx hk⟩
    rw [instruction?_of_value? hx, Value.instruction?, hk]
  · intro b block hb
    exact ⟨h.ascending hb, fun v => h.listed hb, fun v hv o => h.terminator_last hb hv⟩
  · exact ⟨h.params_eq, h.globals_eq, fun n v => h.position⟩
  · intro v w x y c d hne hx hy hxk hyk
    obtain ⟨bits, hxt⟩ := h.constant_type hx hxk
    obtain ⟨bits', hyt⟩ := h.constant_type hy hyk
    refine ⟨bits, bits', hxt, hyt, ?_⟩
    -- with the same integer and width they would share their entry in the table
    intro e
    obtain ⟨rfl, rfl⟩ := Prod.mk.inj e
    exact hne (shared.unique ⟨x, hx, hxk, hxt⟩ ⟨y, hy, hyk, hyt⟩)

/-- The second block is filled before the first, and two calls are rejected: one comes after a
terminator, and one loads from what is no address. -/
def scatterScript : List Step :=
  [.param "x" (.int 8), .constant 5 8, .constant 5 8, .block "entry", .block "exit", .moveTo ⟨1⟩,
    .binary .add ⟨0⟩ ⟨0⟩ "twice", .ret (some ⟨2⟩), .binary .mul ⟨0⟩ ⟨0⟩ "late", .moveTo ⟨0⟩,
    .binary .mul ⟨2⟩ ⟨0⟩ "y", .load ⟨0⟩ "z", .branch ⟨1⟩, .global "g" (.pointer (.int 4)),
    .param "w" (.int 4)]

def scatter : Kernel := (Kernel.ofScript? "scatter" scatterScript).getD (.empty "scatter")

/-- The builder that `scatterScript` ends with: two calls were for one constant. -/
def scatterBuilder : Builder := ⟨scatter, some ⟨0⟩, .ofList [((5, 8), ⟨1⟩)]⟩

/-- The parameter is used three times, by two instructions, and the table has the one constant. -/
theorem records_agree_scatter :
    Kernel.ofScript? "scatter" scatterScript = some scatter ∧
      scatter.usersOf ⟨0⟩ = [⟨2⟩, ⟨2⟩, ⟨4⟩] ∧
      (∀ v, scatter.usersOf v = scatter.readersOf v) ∧
      scatter.params = scatter.valuesOfSort (·.isArgument) ∧
      scatterBuilder.constants.find? (5, 8) = some ⟨1⟩ ∧
      ∃ x, scatter.value? ⟨1⟩ = some x ∧ x.kind = .constant 5 ∧ x.type = .int 8 := by
  have built : Kernel.ofScript? "scatter" scatterScript = some scatter := rfl
  have run : (Step.runAll scatterScript (.start "scatter")).2 = some scatterBuilder := rfl
  obtain ⟨-, husers, -, -, ⟨hparams, -, -⟩, -, b, hb, -, hconstants⟩ := records_agree built
  obtain rfl : b = scatterBuilder := Option.some.inj (hb.symm.trans run)
  exact ⟨built, by decide +kernel, husers, hparams, rfl, (hconstants 5 8 ⟨1⟩).mp rfl⟩

end Datapath.Kernel
