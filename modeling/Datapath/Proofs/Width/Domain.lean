import Datapath.Proofs.Kernel.Typing
import Datapath.Proofs.Width.Refusals

/-!
# Which values have widths

Inference that settles gives widths to some values and not to others, and which these are depends on
the kernel alone. The values *with* a width are found in `Kernel.covered_of_run`: arguments, globals
and instructions, and the operands that rules go through. This module finds those *without* one:

* a constant is reached only as an operand (`Handles.asked`), so an unused one has none;
* a return without a value has a rule that gives no width. It could still get one as the address of
  another instruction, whose rule raises it.

Plain steps exclude both the addresses that are no pointers and the operands that no rule goes
through (`Instruction.Fitted`), and then the description is exact.
-/

namespace Datapath

/-! ## Instructions of plain steps -/

/-- An instruction that has pointers for addresses, and no operands but those its rule needs. -/
structure Instruction.Fitted (types : ValueId → Option Ty) (i : Instruction) : Prop where
  handled : i.opcode.isSupported = true → i.handled = i.operands
  address : ∀ a, i.address? = some a → ∃ element, types a = some (.pointer element)

def Kernel.Fitted (k : Kernel) : Prop := ∀ v i, k.instruction? v = some i → i.Fitted k.typeOf?

/-- An instruction for which nothing counts as an address. -/
theorem Instruction.Fitted.of_no_address {types : ValueId → Option Ty} {i : Instruction}
    (handled : i.opcode.isSupported = true → i.handled = i.operands) (none : i.address? = none) :
    i.Fitted types where
  handled := handled
  address := fun a ha => by cases none.symm.trans ha

namespace Kernel

variable {k : Kernel} {x : Value}

theorem fitted_empty (name : String) : (Kernel.empty name).Fitted := nofun

/-- A fitted kernel stays so if the value that is added is a fitted instruction or none. -/
theorem Fitted.push (h : k.Fitted) (hx : ∀ i, x.instruction? = some i → i.Fitted k.typeOf?) :
    (k.push x).Fitted := by
  have grown {i : Instruction} (hi : i.Fitted k.typeOf?) : i.Fitted (k.push x).typeOf? :=
    ⟨hi.handled, fun a ha => (hi.address a ha).imp fun _ known => typeOf?_push known x⟩
  intro v i hi
  obtain ⟨y, hy, hyi⟩ := Option.bind_eq_some_iff.mp hi
  rcases value?_push_cases hy with ⟨-, rfl⟩ | hy
  · -- the value that is added
    exact grown (hx i hyi)
  · exact grown (h v i ((instruction?_of_value? hy).trans hyi))

end Kernel

namespace Builder

variable {b c : Builder} {i : Instruction} {type : Ty} {name : String} {v : ValueId}

/-- A step that emits a fitted instruction keeps the kernel fitted. -/
theorem fitted_emit (h : b.kernel.Fitted) (hi : i.Fitted b.kernel.typeOf?)
    (run : emit i type name b = .ok v c) : c.kernel.Fitted := by
  obtain ⟨name, block, hc⟩ := kernel_of_emit run
  rw [hc]
  refine h.push (x := ⟨name, type, .instruction i block⟩) fun j hj => ?_
  cases hj
  exact hi

end Builder

namespace Step

open Builder

/-- **A plain step keeps the kernel fitted.** -/
theorem fitted_run {s : Step} {b c : Builder} {answer : Answer} (plain : s.isPlain = true)
    (h : b.kernel.Fitted) (run : s.run b = .ok answer c) : c.kernel.Fitted := by
  cases s with
  | param name type =>
      cases run
      exact h.push (x := ⟨some name, type, .argument _⟩) nofun
  | global name type =>
      cases run
      exact h.push (x := ⟨some name, type, .global⟩) nofun
  | constant value bits =>
      obtain ⟨v, run, -⟩ := Run.map_eq_ok.mp run
      rcases kernel_of_constant run with hc | hc
      · exact hc ▸ h
      · rw [hc]
        exact h.push nofun
  | block name =>
      cases run
      exact h
  | moveTo target =>
      cases run
      exact h
  | binary opcode left right name =>
      obtain ⟨v, run, -⟩ := Run.map_eq_ok.mp run
      refine of_typeOf (fun _ => fitted_emit h (.of_no_address (fun _ => ?_) ?_)) run
      · exact Instruction.handled_of_isArithmetic plain
      · cases opcode <;> first | rfl | cases plain
  | compare predicate left right name =>
      obtain ⟨v, run, -⟩ := Run.map_eq_ok.mp run
      exact of_typeOf (fun _ => fitted_emit h (.of_no_address (fun _ => rfl) rfl)) run
  | elementPointer base indices name =>
      obtain ⟨v, run, -⟩ := Run.map_eq_ok.mp run
      refine of_pointee (fun {whole} known hrest => ?_) run
      cases hw : whole.within (indices.length - 1) with
      | error type => simp [hw] at hrest
      | ok element =>
          rw [hw] at hrest
          refine fitted_emit h ⟨fun _ => rfl, ?_⟩ hrest
          rintro a ⟨⟩
          exact ⟨whole, known⟩
  | load address name =>
      obtain ⟨v, run, -⟩ := Run.map_eq_ok.mp run
      refine of_pointee (fun known => fitted_emit h ⟨fun _ => rfl, ?_⟩) run
      rintro a ⟨⟩
      exact ⟨_, known⟩
  | store value address =>
      obtain ⟨v, run, -⟩ := Run.map_eq_ok.mp run
      refine of_typeOf (fun _ run => ?_) run
      refine of_pointee (fun known => fitted_emit h ⟨fun _ => rfl, ?_⟩) run
      rintro a ⟨⟩
      exact ⟨_, known⟩
  | cast opcode value bits name =>
      obtain ⟨v, run, -⟩ := Run.map_eq_ok.mp run
      refine of_typeOf (fun _ => fitted_emit h (.of_no_address (fun _ => ?_) ?_)) run
      all_goals cases opcode <;> first | rfl | cases plain
  | branch target =>
      obtain ⟨v, run, -⟩ := Run.map_eq_ok.mp run
      exact fitted_emit h (.of_no_address (fun _ => rfl) rfl) run
  | branchIf condition whenTrue whenFalse =>
      obtain ⟨v, run, -⟩ := Run.map_eq_ok.mp run
      exact of_typeOf (fun _ => fitted_emit h (.of_no_address (fun _ => rfl) rfl)) run
  | switch value default cases =>
      obtain ⟨v, run, -⟩ := Run.map_eq_ok.mp run
      exact of_typeOf (fun _ => fitted_emit h (.of_no_address (fun h => by cases h) rfl)) run
  | ret value =>
      obtain ⟨v, run, -⟩ := Run.map_eq_ok.mp run
      cases value with
      | none => exact fitted_emit h (.of_no_address (fun _ => rfl) rfl) run
      | some v => exact of_typeOf (fun _ => fitted_emit h (.of_no_address (fun _ => rfl) rfl)) run
  | instruction opcode operands type name => cases plain

theorem fitted_runAll {script : List Step} (plain : ∀ s ∈ script, s.isPlain = true)
    {b last : Builder} (h : b.kernel.Fitted) {answers : List (Outcome Answer)}
    (run : runAll script b = (answers, some last)) : last.kernel.Fitted := by
  induction script generalizing b answers with
  | nil =>
      cases run
      exact h
  | cons s rest ih =>
      have hrest := fun t ht => plain t (List.mem_cons_of_mem s ht)
      rcases cases_of_runAll_cons run with ⟨answer, c, later, hs, hlater, -⟩ |
        ⟨why, later, -, hlater, -⟩
      · exact ih hrest (fitted_run (plain s List.mem_cons_self) h hs) hlater
      · exact ih hrest h hlater

end Step

/-- **Plain steps make fitted instructions.** -/
theorem Kernel.fitted_of_ofScript? {name : String} {script : List Step} {k : Kernel}
    (plain : ∀ s ∈ script, s.isPlain = true) (built : Kernel.ofScript? name script = some k) :
    k.Fitted := by
  obtain ⟨last, hlast, rfl⟩ := Option.map_eq_some_iff.mp built
  exact Step.fitted_runAll plain (Kernel.fitted_empty name) (Prod.ext rfl hlast)

/-! ## Where a width can come from -/

namespace Kernel

variable {k : Kernel} {v o : ValueId} {i : Instruction}

def IsUsed (k : Kernel) (v : ValueId) : Prop :=
  ∃ u i, k.instruction? u = some i ∧ v ∈ i.operands

/-- A pass comes to `v`, as an instruction or as an operand. -/
def IsReached (k : Kernel) (v : ValueId) : Prop := (∃ i, k.instruction? v = some i) ∨ k.IsUsed v

def IsAddress (k : Kernel) (v : ValueId) : Prop :=
  ∃ u i, k.instruction? u = some i ∧ i.address? = some v

/-- A rule gives `v` a width: its own rule, or that of an instruction it is the address of. -/
def HasSource (k : Kernel) (v : ValueId) : Prop := k.Carries v ∨ k.IsAddress v

theorem IsUsed.of_operand? {n : Nat} (known : k.instruction? v = some i)
    (ho : i.operand? n = some o) : ∀ u ∈ [o], k.IsUsed u := by
  intro u hu
  rw [List.mem_singleton.mp hu]
  exact ⟨v, i, known, Instruction.mem_operands_of_operand? ho⟩

/-- The base of an address computation counts as an address. -/
theorem IsAddress.of_elementPointer (known : k.instruction? v = some i)
    (opcode : i.opcode = .getElementPtr) (start : i.operand? 0 = some o) : k.IsAddress o :=
  ⟨v, i, known, by rw [Instruction.address?, opcode, start]⟩

theorem IsAddress.of_store (known : k.instruction? v = some i) (opcode : i.opcode = .store)
    (target : i.operand? 1 = some o) : k.IsAddress o :=
  ⟨v, i, known, by rw [Instruction.address?, opcode, target]⟩

/-- An instruction with a first operand is no return without a value. -/
theorem Carries.of_operand? (known : k.instruction? v = some i) (ho : i.operand? 0 = some o) :
    k.Carries v := by
  intro j hj _
  obtain rfl := Option.some.inj (known.symm.trans hj)
  rw [ho]
  exact Option.some_ne_none o

theorem Carries.of_instruction?_eq_none (h : k.instruction? v = none) : k.Carries v := by
  intro i hi
  cases h.symm.trans hi

end Kernel

namespace Progress

variable {k : Kernel} {vs ws : List ValueId} {p q r : Progress} {v : ValueId} {bits : Nat}

/-- What is handled in `q` and not in `p` was asked for in `vs`, or some instruction uses it. -/
def Asked (k : Kernel) (vs : List ValueId) (p q : Progress) : Prop :=
  ∀ u ∈ q.visited, u ∈ p.visited ∨ u ∈ vs ∨ k.IsUsed u

namespace Asked

theorem refl (p : Progress) : Asked k vs p p := fun _ => .inl

theorem mark (p : Progress) (v : ValueId) : Asked k [v] p (p.mark v) := by
  intro u hu
  rcases List.mem_cons.mp hu with rfl | hu
  · exact .inr (.inl List.mem_cons_self)
  · exact .inl hu

/-- What is asked for first and what is asked for then are asked for together. -/
theorem append (h : Asked k vs p q) (h' : Asked k ws q r) : Asked k (vs ++ ws) p r := by
  intro u hu
  rcases h' u hu with hu | hws | hused
  · exact (h u hu).imp_right fun asked => asked.imp_left (List.mem_append_left ws)
  · exact .inr (.inl (List.mem_append_right vs hws))
  · exact .inr (.inr hused)

/-- Going on to values that are used anyway. -/
theorem below (h : Asked k vs p q) (h' : Asked k ws q r) (used : ∀ u ∈ ws, k.IsUsed u) :
    Asked k vs p r := by
  intro u hu
  rcases h' u hu with hu | hws | hused
  · exact h u hu
  · exact .inr (.inr (used u hws))
  · exact .inr (.inr hused)

end Asked

/-- What has a width in `q` and none in `p` is handled, and a rule gives it the width. -/
def Sourced (k : Kernel) (p q : Progress) : Prop :=
  ∀ u, (q.width? u).isSome → (p.width? u).isSome ∨ u ∈ q.visited ∧ k.HasSource u

namespace Sourced

theorem refl (p : Progress) : Sourced k p p := fun _ => .inl

theorem mark (p : Progress) (v : ValueId) : Sourced k p (p.mark v) := fun _ => .inl

/-- What has a width on the way has it in the end, and counts as handled still. -/
theorem trans (h : Sourced k p q) (h' : Sourced k q r) (kept : ∀ u ∈ q.visited, u ∈ r.visited) :
    Sourced k p r := by
  intro u hu
  rcases h' u hu with hu | hr
  · exact (h u hu).imp_right fun ⟨hq, source⟩ => ⟨kept u hq, source⟩
  · exact .inr hr

/-- A raise gives a width to one value, which a rule has to account for. -/
theorem raise (h : Sourced k p q) (hv : v ∈ q.visited) (source : k.HasSource v) :
    Sourced k p (q.raise v bits) := by
  intro u hu
  rcases isSome_width?_raise hu with hu | rfl
  · exact h u hu
  · exact .inr ⟨hv, source⟩

end Sourced

end Progress

namespace Handles

open Progress (Asked Sourced)

variable {k : Kernel} {vs : List ValueId} {p q : Progress} {c : Bool}

/-- A value is handled when it is asked for, or as an operand of an instruction. -/
theorem asked (h : Handles k vs p c q) : Asked k vs p q := by
  induction h with
  | nil | visited => exact .refl _
  | cons _ _ ih ih' => exact ih.append ih'
  | seeded | natural | constant | returnVoid | jump => exact .mark _ _
  | arithmetic known _ _ left _ _ right _ _ ih ih' | comparison known _ _ left _ right _ ih ih' =>
      exact ((Asked.mark _ _).below ih (.of_operand? known left)).below ih'
        (.of_operand? known right)
  | store known _ _ data _ _ target _ raised ih ih' =>
      subst raised
      exact ((Asked.mark _ _).below ih (.of_operand? known data)).below ih'
        (.of_operand? known target)
  | copy known _ _ first _ _ ih | branch known _ _ first _ ih =>
      exact (Asked.mark _ _).below ih (.of_operand? known first)
  | elementPointer known _ opcode start _ _ _ raised ih =>
      subst raised
      refine (Asked.mark _ _).below ih fun o ho => ⟨_, _, known, ?_⟩
      rwa [Instruction.operands_eq_of_elementPointer opcode start]

/-- A rule raises the instruction it is for, and perhaps the address of that; both are handled. -/
theorem sourced (h : Handles k vs p c q) : Sourced k p q := by
  induction h with
  | nil | visited => exact .refl _
  | seeded | returnVoid => exact .mark _ _
  | cons _ rest ih ih' => exact ih.trans ih' fun _ => rest.visited_subset
  | natural known _ base =>
      have hnone := Kernel.instruction?_of_isBase known base
      exact (Sourced.mark _ _).raise List.mem_cons_self (.inl (.of_instruction?_eq_none hnone))
  | constant known _ kind =>
      have hnone := Kernel.instruction?_of_constant known kind
      exact (Sourced.mark _ _).raise List.mem_cons_self (.inl (.of_instruction?_eq_none hnone))
  | jump known _ opcode =>
      refine (Sourced.mark _ _).raise List.mem_cons_self (.inl fun i hi ret => ?_)
      obtain rfl := Option.some.inj (known.symm.trans hi)
      cases opcode.symm.trans ret
  | arithmetic known _ _ left h _ _ h' _ ih ih' | comparison known _ _ left h _ h' ih ih' =>
      have hv := h'.visited_subset (h.visited_subset List.mem_cons_self)
      have operands := ((Sourced.mark _ _).trans ih fun _ => h.visited_subset).trans ih'
        fun _ => h'.visited_subset
      exact operands.raise hv (.inl (.of_operand? known left))
  | copy known _ _ first h _ ih | branch known _ _ first h ih =>
      have hv := h.visited_subset List.mem_cons_self
      have operand := (Sourced.mark _ _).trans ih fun _ => h.visited_subset
      exact operand.raise hv (.inl (.of_operand? known first))
  | elementPointer known _ opcode start h _ _ raised ih =>
      subst raised
      have hv := h.visited_subset List.mem_cons_self
      have haddress := h.mem_visited _ List.mem_cons_self
      have operands := (Sourced.mark _ _).trans ih fun _ => h.visited_subset
      -- the address computation is raised, and then its base, which counts as an address
      exact (operands.raise hv (.inl (.of_operand? known start))).raise haddress
        (.inr (.of_elementPointer known opcode start))
  | store known _ opcode data h _ target h' raised ih ih' =>
      subst raised
      have hv := h'.visited_subset (h.visited_subset List.mem_cons_self)
      have haddress := h'.mem_visited _ List.mem_cons_self
      have operands := ((Sourced.mark _ _).trans ih fun _ => h.visited_subset).trans ih'
        fun _ => h'.visited_subset
      exact (operands.raise haddress (.inr (.of_store known opcode target))).raise hv
        (.inl (.of_operand? known data))

end Handles

/-! ## What inference gives widths to -/

namespace Kernel

variable {k : Kernel} {o : Overrides} {m s : Widths} {u : ValueId}

/-- A pass gives widths only to what it reaches and what a rule gives a width to. -/
theorem source_of_pass (wf : k.WellFormed) {p q : Progress} {c : Bool}
    (h : Infer.pass k p = .ok c q) (hu : (q.width? u).isSome) :
    (p.width? u).isSome ∨ k.IsReached u ∧ k.HasSource u := by
  have hrun := Infer.handles_of_pass h
  rcases hrun.sourced u hu with hu | ⟨hvisited, source⟩
  · exact .inl hu
  · refine .inr ⟨?_, source⟩
    rcases hrun.asked u hvisited with hnil | htext | hused
    · cases hnil
    · exact .inl (wf.mem_instructions.mp htext)
    · exact .inr hused

/-- A value that has a width in the end had it from the start, or passes come to it and a rule gives
it a width. -/
theorem source_of_run (wf : k.WellFormed) {limit : Nat}
    (h : k.run limit { widths := s } = .ok m) (hu : (m.width? u).isSome) :
    (s.width? u).isSome ∨ k.IsReached u ∧ k.HasSource u := by
  have pass {c : Bool} {p q : Progress}
      (hp : (p.width? u).isSome → (s.width? u).isSome ∨ k.IsReached u ∧ k.HasSource u)
      (hpass : Infer.pass k p = .ok c q) (hu : (q.width? u).isSome) :
      (s.width? u).isSome ∨ k.IsReached u ∧ k.HasSource u :=
    (source_of_pass wf hpass hu).elim hp .inr
  obtain ⟨r, q, hr, hpass, rfl⟩ := settle_eq_ok (fun _ _ => pass) .inl h
  exact pass hr hpass hu

/-- A return has no type but void. -/
theorem eq_void_of_ret {types : ValueId → Option Ty} {i : Instruction} {type : Ty}
    (h : i.HasType types type) (ret : i.opcode = .ret) : type = .void := by
  cases h with
  | effect => rfl
  | arithmetic opcode | cast opcode =>
      rw [ret] at opcode
      cases opcode
  | comparison opcode | elementPointer opcode | load opcode => cases ret.symm.trans opcode

/-- A return has no type that an address could have. -/
theorem not_isAddress_of_ret (typed : k.WellTyped) (fitted : k.Fitted) {i : Instruction}
    (hi : k.instruction? u = some i) (ret : i.opcode = .ret) : ¬ k.IsAddress u := by
  rintro ⟨v, j, hj, ha⟩
  obtain ⟨element, hpointer⟩ := (fitted v j hj).address u ha
  obtain ⟨x, b, hx, hkind⟩ := exists_kind_of_instruction? hi
  -- an address is a pointer, and a return is void
  have htype := typed u x hx
  rw [Value.TypeFits, hkind] at htype
  rw [typeOf?_of_value? hx, eq_void_of_ret htype ret] at hpointer
  cases hpointer

/-- A value that has a width is no return without a value. -/
theorem carries_of_source (typed : k.WellTyped) (fitted : k.Fitted)
    (source : k.HasSource u) : k.Carries u := by
  rcases source with carries | address
  · exact carries
  · exact fun i hi ret => absurd address (not_isAddress_of_ret typed fitted hi ret)

/-- **The domain of the widths.** For a kernel of plain steps, inference that settles gives a width
to every value of the kernel, and to nothing else, except for returns without a value and constants
that no instruction uses. -/
theorem has_of_infer {name : String} {script : List Step}
    (built : Kernel.ofScript? name script = some k) (plain : ∀ s ∈ script, s.isPlain = true)
    (h : k.infer o = .ok m) (v : ValueId) : m.has v = true ↔ v.index < k.size ∧ k.Carries v ∧
      ∀ x c, k.value? v = some x → x.kind = .constant c → k.usersOf v ≠ [] := by
  have consistent := ofScript?_consistent built
  have wf := consistent.toWellFormed
  have fitted := fitted_of_ofScript? plain built
  obtain ⟨s, hs, h⟩ := Outcome.bind_eq_ok.mp h
  have covered := covered_of_run wf hs h
  constructor
  · intro hv
    refine ⟨covered.inRange hv, ?_⟩
    rcases source_of_run wf h hv with hseed | ⟨reached, source⟩
    · -- arguments and globals are neither returns nor constants
      obtain ⟨x, hx, base⟩ := (isSome_seeds_iff_isBase wf hs v).mp hseed
      refine ⟨Carries.of_instruction?_eq_none (instruction?_of_isBase hx base), ?_⟩
      intro y c hy hkind
      obtain rfl := Option.some.inj (hx.symm.trans hy)
      exact absurd hkind (isBase_ne_constant base)
    · -- a constant that is reached is no instruction, so some instruction uses it
      refine ⟨carries_of_source (wellTyped_of_ofScript? plain built) fitted source, ?_⟩
      intro x c hx hkind
      rcases reached with ⟨i, hi⟩ | ⟨u, i, hi, ho⟩
      · cases (instruction?_of_constant hx hkind).symm.trans hi
      · exact List.ne_nil_of_mem (consistent.mem_usersOf.mpr ⟨i, hi, ho⟩)
  · rintro ⟨hlt, carries, used⟩
    obtain ⟨x, hx⟩ := Option.isSome_iff_exists.mp ((value?_isSome k v).mpr hlt)
    cases hkind : x.kind with
    | argument n => exact covered.bases v x hx (Handles.isBase_of_kind (.inl hkind))
    | global => exact covered.bases v x hx (Handles.isBase_of_kind (n := 0) (.inr hkind))
    | constant c =>
        obtain ⟨u, hu⟩ := List.exists_mem_of_ne_nil _ (used x c hx hkind)
        obtain ⟨i, hi, ho⟩ := consistent.mem_usersOf.mp hu
        -- a fitted instruction goes through all of its operands
        have hhandled := (fitted u i hi).handled (covered.ready hi).supported.1
        exact covered.operands hi (hhandled ▸ ho) carries
    | instruction i b =>
        have hi : k.instruction? v = some i := by
          rw [instruction?_of_value? hx, Value.instruction?, hkind]
        exact covered.instructions hi carries

/-- A sum with a constant, another constant that nothing uses, and a block before the one it
follows. -/
def leftoverScript : List Step :=
  [.param "x" (.int 8), .constant 3 8, .constant 5 8, .block "exit", .block "entry",
    .moveTo ⟨0⟩, .ret none, .moveTo ⟨1⟩, .binary .add ⟨0⟩ ⟨1⟩ "sum", .branch ⟨0⟩]

def leftover : Kernel := (Kernel.ofScript? "leftover" leftoverScript).getD (.empty "leftover")

/-- The constant that is used has a width; the other one, the return and what comes after the last
value have none. -/
theorem has_of_infer_leftover : Kernel.ofScript? "leftover" leftoverScript = some leftover ∧
    (∀ s ∈ leftoverScript, s.isPlain = true) ∧ ∃ m, leftover.infer .empty = .ok m ∧
      m.has ⟨1⟩ = true ∧ m.has ⟨2⟩ = false ∧ m.has ⟨3⟩ = false ∧ m.has ⟨6⟩ = false := by
  have built : Kernel.ofScript? "leftover" leftoverScript = some leftover := rfl
  have plain : ∀ s ∈ leftoverScript, s.isPlain = true := by decide
  have infers : (leftover.infer .empty).toOption.isSome = true := by decide +kernel
  cases hinfer : leftover.infer .empty with
  | error e =>
      rw [hinfer] at infers
      cases infers
  | ok m =>
      have domain := has_of_infer built plain hinfer
      have unused : m.has ⟨2⟩ = false := by
        refine Bool.eq_false_iff.mpr fun has => ?_
        exact ((domain ⟨2⟩).mp has).2.2 ⟨none, .int 8, .constant 5⟩ 5 rfl rfl rfl
      have ret : m.has ⟨3⟩ = false := by
        refine Bool.eq_false_iff.mpr fun has => ?_
        exact absurd ((domain ⟨3⟩).mp has).2.1 (by decide +kernel)
      have used : m.has ⟨1⟩ = true :=
        (domain ⟨1⟩).mpr ⟨by decide +kernel, by decide +kernel, fun _ _ _ _ => by decide +kernel⟩
      refine ⟨built, plain, m, rfl, used, unused, ret, ?_⟩
      exact Bool.eq_false_iff.mpr fun has => absurd ((domain ⟨6⟩).mp has).1 (by decide +kernel)

end Kernel

end Datapath
