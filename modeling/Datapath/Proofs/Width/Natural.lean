import Datapath.Proofs.Kernel.Typing
import Datapath.Proofs.Width.Refusals
import Datapath.Proofs.Width.Seeds

/-!
# Pointers and loads are as wide as their types

The type of a pointer or of a load has a *natural width*: that of the integer below its pointers and
arrays. Inference does not look at types, except at those of parameters and globals. Nevertheless it
records no smaller width for a pointer or a load than the natural one, where types were given by the
builder (`Kernel.naturalWidth_le`).

Types and widths take the same way. An instruction that asks for a natural width, being a pointer or
a load, has an operand that asks for the same (`Kernel.Asks.operand`), and its rule reads the width
of that operand. The exception is a store, which raises its address to the width of what it stores.
But an address is handled before it is raised, so it has a width by then, and joining another width
into that leaves it no smaller.
-/

namespace Datapath

/-! ## Types -/

namespace Ty

/-- Stepping into arrays keeps the natural width. -/
theorem naturalWidth?_within {whole element : Ty} {depth : Nat}
    (h : whole.within depth = .ok element) : element.naturalWidth? = whole.naturalWidth? := by
  induction depth generalizing whole with
  | zero =>
      cases h
      rfl
  | succ depth ih =>
      cases whole with
      | array length inner =>
          have hinner := ih (show inner.within depth = .ok element from h)
          rwa [naturalWidth?_array]
      | int | pointer | void => cases h

end Ty

namespace Kernel

variable {k : Kernel} {v o : ValueId} {i : Instruction} {x : Value} {n : Nat}

/-- The value is a pointer or a load, and its type has the natural width `n`. -/
def Asks (k : Kernel) (v : ValueId) (n : Nat) : Prop :=
  ∃ x, k.value? v = some x ∧ (x.type.isPointer = true ∨ x.opcode? = some .load) ∧
    x.type.naturalWidth? = some n

/-- A value of pointer type asks for its natural width. -/
theorem asks_of_pointer {element : Ty} (type : k.typeOf? o = some (.pointer element))
    (natural : element.naturalWidth? = some n) : k.Asks o n := by
  obtain ⟨y, hy, hpointer⟩ := Option.map_eq_some_iff.mp type
  exact ⟨y, hy, .inl (by rw [hpointer]; rfl), by rw [hpointer]; exact natural⟩

/-- A constant asks for nothing. -/
theorem not_asks_of_constant (typed : k.WellTyped) {c : Int} (hx : k.value? v = some x)
    (hk : x.kind = .constant c) (n : Nat) : ¬ k.Asks v n := by
  rintro ⟨y, hy, hasks, -⟩
  obtain rfl : x = y := Option.some.inj (hx.symm.trans hy)
  have htype := typed v x hx
  simp only [Value.TypeFits, hk] at htype
  obtain ⟨bits, hbits⟩ := htype
  rcases hasks with hasks | hasks
  · simp [hbits, Ty.isPointer] at hasks
  · simp [Value.opcode?, Value.instruction?, hk] at hasks

/-- **An instruction that asks for a width has an operand that asks for the same.** It is arithmetic
on pointers, an address computation or a load. -/
theorem Asks.operand (typed : k.WellTyped) (h : k.Asks v n) (hi : k.instruction? v = some i) :
    (i.opcode.isArithmetic = true ∨ i.opcode = .getElementPtr ∨ i.opcode = .load) ∧
      ∃ o, i.operand? 0 = some o ∧ k.Asks o n := by
  obtain ⟨x, hx, hasks, natural⟩ := h
  have htype : i.HasType k.typeOf? x.type := by
    have hfits := typed v x hx
    rw [instruction?_of_value? hx] at hi
    unfold Value.TypeFits at hfits
    unfold Value.instruction? at hi
    cases hk : x.kind <;> simp_all
  have hload : x.opcode? = some .load ↔ i.opcode = .load := by
    rw [instruction?_of_value? hx] at hi
    simp [Value.opcode?, hi]
  rw [hload] at hasks
  generalize x.type = type at htype hasks natural
  cases htype with
  | @arithmetic left _ opcode operand known =>
      rcases hasks with hpointer | hop
      · obtain ⟨element, rfl⟩ := Ty.isPointer_iff.mp hpointer
        exact ⟨.inl opcode, left, operand, asks_of_pointer known natural⟩
      · simp [hop, Opcode.isArithmetic] at opcode
  | @elementPointer base whole element depth opcode operand known within =>
      refine ⟨.inr (.inl opcode), base, operand, asks_of_pointer known ?_⟩
      rwa [← Ty.naturalWidth?_within within]
  | @load address _ opcode operand known =>
      exact ⟨.inr (.inr opcode), address, operand, asks_of_pointer known natural⟩
  | comparison opcode => simp [Ty.isPointer, opcode] at hasks
  | cast opcode =>
      rcases hasks with hpointer | hop
      · cases hpointer
      · simp [hop, Opcode.isCast] at opcode
  | effect => cases natural

theorem Asks.of_operand (typed : k.WellTyped) (h : k.Asks v n) (hi : k.instruction? v = some i)
    (ho : i.operand? 0 = some o) : k.Asks o n := by
  obtain ⟨-, o', ho', hasks⟩ := h.operand typed hi
  obtain rfl := Option.some.inj (ho.symm.trans ho')
  exact hasks

/-- Comparisons, stores, branches and returns ask for nothing. -/
theorem not_asks_of_opcode (typed : k.WellTyped) (hi : k.instruction? v = some i)
    (opcode : i.opcode ∈ [.icmp, .store, .br, .condBr, .ret]) (n : Nat) : ¬ k.Asks v n := by
  intro h
  obtain ⟨hop, -⟩ := h.operand typed hi
  cases ho : i.opcode <;> simp_all [Opcode.isArithmetic]

end Kernel

/-! ## Widths -/

namespace Progress

variable {k : Kernel} {p q : Progress} {v : ValueId} {bits n : Nat}

/-- No recorded width is smaller than the one that its value asks for. -/
def Ample (k : Kernel) (p : Progress) : Prop :=
  ∀ v n bits, k.Asks v n → p.width? v = some bits → n ≤ bits

/-- Raising keeps this if the new width is large enough or comes on top of another. -/
theorem Ample.raise (h : p.Ample k)
    (room : ∀ n, k.Asks v n → n ≤ bits ∨ (p.width? v).isSome = true) :
    (p.raise v bits).Ample k := by
  intro u n width hasks hwidth
  by_cases e : v = u
  · subst e
    rw [width?_raise_self] at hwidth
    cases hv : p.width? v with
    | some old =>
        have hold := h v n old hasks hv
        rw [hv, Width.join_some_some] at hwidth
        exact Option.some.inj hwidth ▸ Nat.le_trans hold (Nat.le_max_left old bits)
    | none =>
        rw [hv] at hwidth
        obtain rfl : bits = width := Option.some.inj hwidth
        exact (room n hasks).resolve_right (by simp [hv])
  · rw [width?_raise_of_ne e] at hwidth
    exact h u n width hasks hwidth

theorem Ample.raise_of_not_asks (h : p.Ample k) (silent : ∀ n, ¬ k.Asks v n) :
    (p.raise v bits).Ample k :=
  h.raise fun n hasks => absurd hasks (silent n)

end Progress

namespace Handles

variable {k : Kernel} {vs : List ValueId} {p q : Progress} {c : Bool} {n : Nat}

/-- **Handling records no width that is too small.** Values below `n` that count as handled have a
width, and this is what a store needs to know of its address. -/
theorem ample (wf : k.WellFormed) (typed : k.WellTyped) (h : Handles k vs p c q)
    (below : ∀ v ∈ vs, v.index ≤ n) (settled : p.Settled k n) (hp : p.Ample k) : q.Ample k := by
  -- the operands of an instruction are handled with the instruction marked
  have marked {v : ValueId} {p : Progress} {n : Nat} (below : ∀ u ∈ [v], u.index ≤ n)
      (settled : p.Settled k n) : (p.mark v).Settled k v.index :=
    (settled.mono (below v List.mem_cons_self)).mark
  have lower {v o : ValueId} {i : Instruction} {m : Nat} (hi : k.instruction? v = some i)
      (ho : i.operand? m = some o) : ∀ u ∈ [o], u.index ≤ v.index := by
    intro u hu
    obtain rfl := List.mem_singleton.mp hu
    exact Nat.le_of_lt (wf.operand_lt hi (Instruction.mem_operands_of_operand? ho))
  induction h generalizing n with
  | nil | visited | seeded | returnVoid => exact hp
  | cons first rest ih ih' =>
      have hq := ih (fun v hv => below v (by simp_all)) settled hp
      exact ih' (fun v hv => below v (List.mem_cons_of_mem _ hv)) (settled.handle first) hq
  | @natural v p x bits hx _ _ _ type =>
      have hmark : (p.mark v).Ample k := hp
      refine hmark.raise fun m hasks => .inl ?_
      obtain ⟨y, hy, -, natural⟩ := hasks
      obtain rfl : x = y := Option.some.inj (hx.symm.trans hy)
      exact Nat.le_of_eq (Option.some.inj (natural.symm.trans type))
  | @constant v p _ _ hx _ kind =>
      have hmark : (p.mark v).Ample k := hp
      exact hmark.raise_of_not_asks (Kernel.not_asks_of_constant typed hx kind)
  | @arithmetic v l r i p q s c d a b hi _ _ left h width right h' width' ih ih' =>
      have hmark := marked below settled
      have hq := ih (lower hi left) hmark hp
      have hs := ih' (lower hi right) (hmark.handle h) hq
      refine hs.raise fun m hasks => .inl ?_
      exact Nat.le_trans (hq l m a (hasks.of_operand typed hi left) width) (Nat.le_max_left a b)
  | comparison hi _ opcode left h right h' ih ih' =>
      have hmark := marked below settled
      have hs := ih' (lower hi right) (hmark.handle h) (ih (lower hi left) hmark hp)
      exact hs.raise_of_not_asks (Kernel.not_asks_of_opcode typed hi (by simp [opcode]))
  | @elementPointer v base i p q s _ a bits hi _ opcode start h width wider raised ih =>
      have hq := ih (fun o ho => by
        rw [← Instruction.operands_eq_of_elementPointer opcode start] at ho
        exact Nat.le_of_lt (wf.operand_lt hi ho)) (marked below settled) hp
      -- both ends are raised to at least the width of the base, which is large enough for both
      have hbase (m : Nat) (hasks : k.Asks base m) : m ≤ bits := by
        rw [wider]
        exact Nat.le_trans (hq base m a hasks width) (Nat.le_max_left _ _)
      subst raised
      exact (hq.raise fun m hasks => .inl (hbase m (hasks.of_operand typed hi start))).raise
        fun m hasks => .inl (hbase m hasks)
  | @copy v o i p q _ a hi _ _ operand h width ih =>
      have hq := ih (lower hi operand) (marked below settled) hp
      exact hq.raise fun m hasks => .inl (hq o m a (hasks.of_operand typed hi operand) width)
  | @store v stored address i p q s t _ _ a hi _ opcode data h width target h' raised ih ih' =>
      have hmark := marked below settled
      have hs := ih' (lower hi target) (hmark.handle h) (ih (lower hi data) hmark hp)
      subst raised
      refine (hs.raise fun m hasks => .inr ?_).raise_of_not_asks
        (Kernel.not_asks_of_opcode typed hi (by simp [opcode]))
      -- the address was handled, and a pointer is no return
      have hlt := wf.operand_lt hi (Instruction.mem_operands_of_operand? target)
      have hvisited := h'.mem_visited address List.mem_cons_self
      refine ((hmark.handle h).handle h').known address hvisited hlt fun j hj hret => ?_
      exact absurd hasks (Kernel.not_asks_of_opcode typed hj (by simp [hret]) m)
  | @jump v i p hi _ opcode =>
      have hmark : (p.mark v).Ample k := hp
      exact hmark.raise_of_not_asks (Kernel.not_asks_of_opcode typed hi (by simp [opcode]))
  | branch hi _ opcode operand h ih =>
      have hq := ih (lower hi operand) (marked below settled) hp
      exact hq.raise_of_not_asks (Kernel.not_asks_of_opcode typed hi (by simp [opcode]))

end Handles

/-! ## Inference -/

namespace Kernel

variable {k : Kernel} {v : ValueId} {bits : Nat} {type : Ty}

theorem naturalWidth_eq_ok : naturalWidth v type = .ok bits ↔ type.naturalWidth? = some bits := by
  unfold naturalWidth
  cases type.naturalWidth? <;> simp

/-- Where no width is stated for a parameter, seeds are the natural widths of types. -/
theorem naturalWidth?_of_seeds (wf : k.WellFormed) {s : Widths} (hs : k.seeds .empty = .ok s)
    {x : Value} (hx : k.value? v = some x) (hseed : s.width? v = some bits) :
    x.type.naturalWidth? = some bits := by
  rw [← naturalWidth_eq_ok (v := v)]
  rcases (seeds_eq_some_iff wf hs).mp hseed with ⟨-, hparam⟩ | ⟨-, hglobal⟩
  · rw [paramWidth, value_eq_ok.mpr hx] at hparam
    exact hparam
  · rw [globalWidth, value_eq_ok.mpr hx] at hglobal
    exact hglobal

theorem ample_seeds (wf : k.WellFormed) {s : Widths} (hs : k.seeds .empty = .ok s) :
    Progress.Ample k { widths := s } := by
  rintro v n bits ⟨x, hx, -, natural⟩ hseed
  have hbits := naturalWidth?_of_seeds wf hs hx hseed
  exact Nat.le_of_eq (Option.some.inj (natural.symm.trans hbits))

theorem ample_of_pass (wf : k.WellFormed) (typed : k.WellTyped) {p q : Progress} {c : Bool}
    (valid : p.Valid k) (hp : p.Ample k) (h : Infer.pass k p = .ok c q) : q.Ample k := by
  have hbegin : (p.begin).Settled k k.size := ⟨valid.bases, nofun⟩
  refine (Infer.handles_of_pass h).ample wf typed (fun v hv => ?_) hbegin hp
  obtain ⟨i, hi⟩ := wf.mem_instructions.mp hv
  exact Nat.le_of_lt (instruction?_lt hi)

/-- **Pointers and loads are not under-sized.** Where types were given by the builder and no width
is stated for a parameter, inference leaves no pointer and no load with a width below the natural
width of its type. -/
theorem naturalWidth_le {name : String} {script : List Step}
    (built : Kernel.ofScript? name script = some k) (plain : ∀ s ∈ script, s.isPlain = true)
    {m : Widths} (settled : k.infer .empty = .ok m) {x : Value} (hx : k.value? v = some x)
    (sort : x.type.isPointer = true ∨ x.opcode? = some .load) {n : Nat}
    (natural : x.type.naturalWidth? = some n) (hbits : m.width? v = some bits) : n ≤ bits := by
  have wf := ofScript?_wellFormed built
  have typed := wellTyped_of_ofScript? plain built
  obtain ⟨s, hs, hm⟩ := Outcome.bind_eq_ok.mp settled
  have step (p q : Progress) (hp : p.Valid k ∧ p.Ample k) (hpass : Infer.pass k p = .ok true q) :
      q.Valid k ∧ q.Ample k :=
    ⟨hp.1.begin.handle (Infer.handles_of_pass hpass), ample_of_pass wf typed hp.1 hp.2 hpass⟩
  obtain ⟨r, q, hr, hpass, rfl⟩ := settle_eq_ok step ⟨valid_seeds wf hs, ample_seeds wf hs⟩ hm
  exact ample_of_pass wf typed hr.1 hr.2 hpass v n bits ⟨x, hx, sort, natural⟩ hbits

/-- Eight bits are stored in a cell of a table of twenty bits, and more is loaded from behind it. -/
def tableScript : List Step :=
  [.param "table" (.pointer (.array 4 (.int 20))), .param "i" (.int 8), .block "entry", .moveTo ⟨0⟩,
    .elementPointer ⟨0⟩ [⟨1⟩, ⟨1⟩] "cell", .store ⟨1⟩ ⟨2⟩, .binary .add ⟨2⟩ ⟨1⟩ "behind",
    .load ⟨4⟩ "x", .ret none]

def table : Kernel := (Kernel.ofScript? "table" tableScript).getD (.empty "table")

/-- The load from behind the cell has the twenty bits that its type asks for. -/
theorem naturalWidth_le_table : Kernel.ofScript? "table" tableScript = some table ∧
    (∀ s ∈ tableScript, s.isPlain = true) ∧ table.opcode? ⟨5⟩ = some .load ∧
      ∃ m bits, table.infer .empty = .ok m ∧ m.width? ⟨5⟩ = some bits ∧ 20 ≤ bits := by
  have built : Kernel.ofScript? "table" tableScript = some table := rfl
  have plain : ∀ s ∈ tableScript, s.isPlain = true := by decide
  obtain ⟨m, hm, hw⟩ : ∃ m, table.infer .empty = .ok m ∧ m.width? ⟨5⟩ = some 20 := by
    have h : (table.infer .empty).toOption.map (·.width? ⟨5⟩) = some (some 20) := by decide +kernel
    obtain ⟨m, hm, hw⟩ := Option.map_eq_some_iff.mp h
    exact ⟨m, Outcome.toOption_eq_some.mp hm, hw⟩
  exact ⟨built, plain, rfl, m, 20, hm, hw, naturalWidth_le built plain hm rfl (.inr rfl) rfl hw⟩

end Kernel

end Datapath
