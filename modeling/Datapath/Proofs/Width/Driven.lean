import Datapath.Proofs.Width.Least
import Datapath.Proofs.Width.Seeds

/-!
# Driving inference through its faults

What a failed call had recorded stays recorded, so a caller who drives inference by hand can go on
after a fault, and stale marks of values that count as handled are left behind. `Infer.Advances`
says what a step of inference does to the widths *however it ends*. It is kept by sequencing, so it
holds of a rule if it holds of visits of operands (`Infer.advances_rule`), and then of every call.

* No width shrinks, and values recorded for the first time come behind those recorded before.
* Every width is *supplied*: it is that of a seed or a constant, or 0 or 1. Rules only copy widths
  and take the wider of two.
-/

namespace Datapath

/-! ## Where widths come from -/

/-- The widths that there are to begin with: those of the seeds and of the constants, 0 and 1. -/
inductive Kernel.Supplies (k : Kernel) (overrides : Overrides) : Nat → Prop
  | param {v : ValueId} {bits : Nat} (mem : v ∈ k.params)
      (seed : k.paramWidth overrides v = .ok bits) : Supplies k overrides bits
  | global {v : ValueId} {bits : Nat} (mem : v ∈ k.globals)
      (seed : k.globalWidth v = .ok bits) : Supplies k overrides bits
  | constant {v : ValueId} {x : Value} {c : Int} (known : k.value? v = some x)
      (kind : x.kind = .constant c) : Supplies k overrides (Width.ofConstant c)
  | zero : Supplies k overrides 0
  | one : Supplies k overrides 1

/-- The wider of two supplied widths is one of them. -/
theorem Kernel.Supplies.max {k : Kernel} {overrides : Overrides} {a b : Nat}
    (ha : k.Supplies overrides a) (hb : k.Supplies overrides b) :
    k.Supplies overrides (max a b) := by
  rcases Nat.le_total a b with h | h
  · rwa [Nat.max_eq_right h]
  · rwa [Nat.max_eq_left h]

/-- A width that is not below another is known, and the other is smaller or unknown. -/
theorem Width.not_le_iff {x y : Option Nat} :
    ¬ x ≤ y ↔ ∃ a, x = some a ∧ ∀ b, y = some b → b < a := by
  cases x with
  | none => simp
  | some a => cases y <;> simp

namespace Widths

/-- One map of widths is below another if it is so for each value. -/
theorem isBelow_iff {w u : Widths} : w.isBelow u = true ↔ ∀ v, w.width? v ≤ u.width? v := by
  unfold isBelow toList
  rw [List.all_eq_true]
  constructor
  · intro h v
    cases hv : w.width? v with
    | none => exact Option.none_le
    | some bits =>
        -- a known width is listed, and the test goes through the list
        have := h (v, bits) ((w.recorded.find?_eq_some_iff v bits).mp hv)
        simpa [Width.some_le_iff, Option.any_eq_true] using this
  · rintro h ⟨v, bits⟩ hmem
    have hle := h v
    rw [show w.width? v = some bits from (w.recorded.find?_eq_some_iff v bits).mpr hmem] at hle
    simpa [Width.some_le_iff, Option.any_eq_true] using hle

/-- Raising changes the order of entry at its end only. -/
theorem keys_prefix_raise (w : Widths) (v : ValueId) (bits : Nat) :
    w.recorded.keys <+: (w.raise v bits).2.recorded.keys := by
  unfold raise
  split
  · exact List.prefix_rfl
  · split
    · exact List.prefix_rfl
    · -- a value recorded for the first time comes last, any other keeps its place
      show _ <+: (w.recorded.insert v _).keys
      rw [Table.keys_insert]
      split
      · exact List.prefix_rfl
      · exact List.prefix_append _ _

end Widths

namespace Progress

/-- One stage of inference leads to another by recording: no width shrinks, and new values come
behind the old ones. -/
structure Onward (p q : Progress) : Prop where
  width : ∀ u, p.width? u ≤ q.width? u
  order : p.widths.recorded.keys <+: q.widths.recorded.keys

namespace Onward

variable {p q r : Progress}

/-- What leaves the widths alone leads onward. -/
theorem of_widths_eq (h : q.widths = p.widths) : p.Onward q where
  width := by
    intro u
    rw [width?, width?, h]
    exact Width.le_refl _
  order := h ▸ List.prefix_rfl

protected theorem refl (p : Progress) : p.Onward p := .of_widths_eq rfl

protected theorem trans (h : p.Onward q) (h' : q.Onward r) : p.Onward r where
  width := fun u => Width.le_trans (h.width u) (h'.width u)
  order := h.order.trans h'.order

/-- Joining in a supplied width keeps widths supplied. -/
protected theorem raise (p : Progress) (v : ValueId) (bits : Nat) : p.Onward (p.raise v bits) :=
  ⟨p.le_raise v bits, p.widths.keys_prefix_raise v bits⟩

end Onward

/-- Every width is supplied, and arguments and globals have theirs. -/
structure Supplied (k : Kernel) (overrides : Overrides) (p : Progress) : Prop where
  bases : k.BasesKnown p.width?
  widths : ∀ v bits, p.width? v = some bits → k.Supplies overrides bits

namespace Supplied

variable {k : Kernel} {overrides : Overrides} {p q : Progress}

theorem of_widths_eq (hp : p.Supplied k overrides) (h : q.widths = p.widths) :
    q.Supplied k overrides := by
  have same : q.width? = p.width? := by
    unfold width?
    rw [h]
  exact ⟨same ▸ hp.bases, same ▸ hp.widths⟩

/-- An unknown width counts as zero, which is supplied. -/
theorem getD (hp : p.Supplied k overrides) (v : ValueId) :
    k.Supplies overrides ((p.width? v).getD 0) := by
  cases hv : p.width? v with
  | none => exact .zero
  | some bits => exact hp.widths v bits hv

theorem raise (hp : p.Supplied k overrides) (v : ValueId) {bits : Nat}
    (hb : k.Supplies overrides bits) : (p.raise v bits).Supplied k overrides where
  bases := hp.bases.mono (p.le_raise v bits)
  widths := by
    intro u b hu
    by_cases e : v = u
    · subst e
      rw [width?_raise_self] at hu
      cases hv : p.width? v with
      | none =>
          rw [hv, Width.join_none_left] at hu
          exact Option.some.inj hu ▸ hb
      | some a =>
          rw [hv, Width.join_some_some] at hu
          exact Option.some.inj hu ▸ (hp.widths v a hv).max hb
    · rw [width?_raise_of_ne e] at hu
      exact hp.widths u b hu

end Supplied

end Progress

/-! ## Steps, however they end -/

namespace Infer

variable {α β : Type}

/-- Where a step leaves off, whether it succeeds or fails. -/
def after (act : Infer α) (p : Progress) : Progress :=
  match act p with
  | .ok _ q => q
  | .error _ q => q

def answer? (act : Infer α) (p : Progress) : Option α :=
  match act p with
  | .ok a _ => some a
  | .error _ _ => none

/-- There is an answer where a step succeeds. -/
theorem answer?_eq_some {act : Infer α} {p : Progress} {a : α} :
    answer? act p = some a ↔ act p = .ok a (after act p) := by
  unfold answer? after
  cases act p <;> simp

theorem after_of_ok {act : Infer α} {p q : Progress} {a : α} (h : act p = .ok a q) :
    after act p = q := by
  rw [after, h]

/-- Two steps leave off where the first one fails, or else where the second one does. -/
theorem after_bind (x : Infer α) (f : α → Infer β) (p : Progress) :
    after (x >>= f) p = after x p ∨
      ∃ a, x p = .ok a (after x p) ∧ after (x >>= f) p = after (f a) (after x p) := by
  show after (EStateM.bind x f) p = _ ∨ ∃ a, _ ∧ after (EStateM.bind x f) p = _
  cases h : x p with
  | error fault q => exact .inl (by simp only [after, EStateM.bind, h])
  | ok a q => exact .inr ⟨a, by simp only [after, EStateM.bind, h, and_self]⟩

def Anything (_ : α) : Prop := True

/-- From where widths are supplied a step leads onward to where they are supplied, whether it
succeeds or fails, and an answer that it gives is `good`. -/
structure Advances (k : Kernel) (overrides : Overrides) (good : α → Prop) (act : Infer α) :
    Prop where
  onward : ∀ p : Progress, p.Supplied k overrides → p.Onward (after act p)
  supplied : ∀ p : Progress, p.Supplied k overrides → (after act p).Supplied k overrides
  answer : ∀ (p : Progress) a q, p.Supplied k overrides → act p = .ok a q → good a

variable {k : Kernel} {overrides : Overrides} {good : α → Prop} {good' : β → Prop}

namespace Advances

/-- Steps in a row advance if each does from where the one before leaves off. -/
theorem bind {x : Infer α} {f : α → Infer β} (hx : Advances k overrides good x)
    (hf : ∀ a, good a → Advances k overrides good' (f a)) :
    Advances k overrides good' (x >>= f) where
  onward := by
    intro p hp
    rcases after_bind x f p with h | ⟨a, ha, h⟩ <;> rw [h]
    · exact hx.onward p hp
    · have good := hx.answer p a _ hp ha
      exact (hx.onward p hp).trans ((hf a good).onward _ (hx.supplied p hp))
  supplied := by
    intro p hp
    rcases after_bind x f p with h | ⟨a, ha, h⟩ <;> rw [h]
    · exact hx.supplied p hp
    · exact (hf a (hx.answer p a _ hp ha)).supplied _ (hx.supplied p hp)
  answer := by
    intro p b r hp h
    obtain ⟨a, q, hq, hr⟩ := Run.bind_eq_ok.mp h
    have hsq := hx.supplied p hp
    rw [after_of_ok hq] at hsq
    exact (hf a (hx.answer p a q hp hq)).answer q b r hsq hr

/-- A step that leaves the widths alone. -/
theorem of_reads {act : Infer α}
    (same : ∀ p, p.Supplied k overrides → (after act p).widths = p.widths)
    (answer : ∀ (p : Progress) a q, p.Supplied k overrides → act p = .ok a q → good a) :
    Advances k overrides good act where
  onward := fun p hp => .of_widths_eq (same p hp)
  supplied := fun p hp => hp.of_widths_eq (same p hp)
  answer := answer

protected theorem pure {a : α} (h : good a) : Advances k overrides good (pure a : Infer α) :=
  .of_reads (fun _ _ => rfl) fun _ _ _ _ e => (Run.pure_eq_ok.mp e).1 ▸ h

protected theorem throw (fault : Fault) : Advances k overrides good (throw fault : Infer α) :=
  .of_reads (fun _ _ => rfl) nofun

protected theorem reject (why : Rejection) : Advances k overrides good (reject why : Infer α) :=
  .throw _

protected theorem ofExcept {x : Outcome α} (h : ∀ a, x = .ok a → good a) :
    Advances k overrides good (MonadExcept.ofExcept x : Infer α) := by
  cases x with
  | error fault => exact .throw fault
  | ok a => exact .pure (h a rfl)

protected theorem get :
    Advances k overrides (Progress.Supplied k overrides) (get : Infer Progress) :=
  .of_reads (fun _ _ => rfl) fun _ _ _ hp e => (Run.get_eq_ok.mp e).1 ▸ hp

protected theorem modify (f : Progress → Progress) (same : ∀ p, (f p).widths = p.widths) :
    Advances k overrides Anything (modify f : Infer PUnit) :=
  .of_reads (fun p _ => same p) fun _ _ _ _ _ => trivial

protected theorem raise (v : ValueId) {bits : Nat} (h : k.Supplies overrides bits) :
    Advances k overrides Anything (raise v bits) where
  onward := fun p _ => .raise p v bits
  supplied := fun _ hp => hp.raise v h
  answer := fun _ _ _ _ _ => trivial

end Advances

/-! ## The rules -/

theorem advances_width (v : ValueId) : Advances k overrides (k.Supplies overrides) (width v) := by
  refine Advances.bind .get fun p hp => .ofExcept fun bits h => ?_
  exact hp.widths v bits (Widths.width_eq_ok.mp h)

theorem advances_operand (v : ValueId) (i : Instruction) (n : Nat) :
    Advances k overrides Anything (operand v i n) := by
  unfold operand
  split
  · exact .pure trivial
  · exact .reject _

variable {visit : ValueId → Infer Bool} (visits : ∀ o, Advances k overrides Anything (visit o))
include visits

/-- Visits in a row advance if each of them does. -/
theorem advances_visitAll (vs : List ValueId) :
    Advances k overrides Anything (visitAll visit vs) := by
  induction vs with
  | nil => exact .pure trivial
  | cons o rest ih => exact (visits o).bind fun _ _ => ih.bind fun _ _ => .pure trivial

theorem advances_widthOf (o : ValueId) :
    Advances k overrides (k.Supplies overrides) (widthOf visit o) :=
  (visits o).bind fun _ _ => advances_width o

theorem advances_arithmeticRule (v : ValueId) (i : Instruction) :
    Advances k overrides Anything (arithmeticRule visit v i) := by
  refine (advances_operand v i 0).bind fun l _ => (advances_widthOf visits l).bind fun a ha => ?_
  refine (advances_operand v i 1).bind fun r _ => (advances_widthOf visits r).bind fun b hb => ?_
  exact .raise v (ha.max hb)

theorem advances_comparisonRule (v : ValueId) (i : Instruction) :
    Advances k overrides Anything (comparisonRule visit v i) := by
  refine (advances_operand v i 0).bind fun l _ => (visits l).bind fun _ _ => ?_
  refine (advances_operand v i 1).bind fun r _ => (visits r).bind fun _ _ => ?_
  exact .raise v .one

/-- An address computation and its base get the wider one of their two widths. -/
theorem advances_elementPointerRule (v : ValueId) (i : Instruction) :
    Advances k overrides Anything (elementPointerRule visit v i) := by
  refine (advances_operand v i 0).bind fun base _ => ?_
  refine (advances_visitAll visits (base :: i.indices)).bind fun _ _ => ?_
  refine (advances_width base).bind fun a ha => Advances.get.bind fun p hp => ?_
  have bits : k.Supplies overrides (max a ((p.width? v).getD 0)) := ha.max (hp.getD v)
  exact (Advances.raise v bits).bind fun _ _ => (Advances.raise base bits).bind fun _ _ =>
    .pure trivial

/-- A copy hands on a width that is supplied. -/
theorem advances_copyRule (v o : ValueId) : Advances k overrides Anything (copyRule visit v o) :=
  (advances_widthOf visits o).bind fun _ ha => .raise v ha

theorem advances_storeRule (v : ValueId) (i : Instruction) :
    Advances k overrides Anything (storeRule visit v i) := by
  refine (advances_operand v i 0).bind fun stored _ => ?_
  refine (advances_widthOf visits stored).bind fun a ha => ?_
  refine (advances_operand v i 1).bind fun address _ => (visits address).bind fun _ _ => ?_
  exact (Advances.raise address ha).bind fun _ _ => (Advances.raise v ha).bind fun _ _ =>
    .pure trivial

theorem advances_branchRule (v : ValueId) (i : Instruction) :
    Advances k overrides Anything (branchRule visit v i) := by
  refine (advances_operand v i 0).bind fun condition _ => (visits condition).bind fun _ _ => ?_
  exact (Advances.raise v .zero).bind fun _ _ => .pure trivial

/-- **A rule advances if visits of operands do.** -/
theorem advances_rule (v : ValueId) (i : Instruction) (block : BlockId) :
    Advances k overrides Anything (rule visit k v i block) := by
  unfold rule
  cases i.opcode with
  | add | sub | mul | sdiv | udiv | ashr => exact advances_arithmeticRule visits v i
  | icmp => exact advances_comparisonRule visits v i
  | getElementPtr => exact advances_elementPointerRule visits v i
  | load | trunc | zext =>
      exact (advances_operand v i 0).bind fun o _ => advances_copyRule visits v o
  | store => exact advances_storeRule visits v i
  | ret =>
      dsimp only
      cases i.operand? 0 with
      | some o => exact advances_copyRule visits v o
      | none => exact .pure trivial
  | br => exact .raise v .zero
  | condBr => exact advances_branchRule visits v i
  | switch =>
      have found : Advances k overrides Anything
          (MonadExcept.ofExcept (k.block block) : Infer Block) := .ofExcept fun _ _ => trivial
      exact found.bind fun _ _ => .reject _
  | phi | call | and | or | xor | shl | lshr | sext | select => exact .reject _

omit visits

/-! ## Values and passes -/

/-- A type gives a width only to a value that has none, and where arguments and globals have theirs
that is no argument and no global. -/
theorem advances_seedMissing {v : ValueId} {x : Value} (known : k.value? v = some x)
    (base : x.isBase = true) (type : Ty) :
    Advances k overrides Anything (seedMissing v type) := by
  refine .of_reads (fun p hp => ?_) fun _ _ _ _ _ => trivial
  have run : seedMissing v type p = .ok false p :=
    seedMissing_eq_ok.mpr (.inl ⟨hp.bases v x known base, rfl, rfl⟩)
  rw [after_of_ok run]

/-- Handling a value advances: a rule visits older values only, and constants bring their own width.
-/
theorem advances_process (v : ValueId) : Advances k overrides Anything (process k v) := by
  rw [process]
  split
  · exact .throw _
  · next x hx =>
    -- marks of handled values say nothing about widths
    have visited : Advances k overrides Anything (isVisited v) :=
      Advances.get.bind fun _ _ => .pure trivial
    have marked : Advances k overrides Anything (markVisited v) := .modify _ fun _ => rfl
    refine visited.bind fun old _ => ?_
    split
    · exact .pure trivial
    · refine marked.bind fun _ _ => ?_
      split
      · next n hk => exact advances_seedMissing hx (Handles.isBase_of_kind (.inl hk)) x.type
      · next hk =>
        exact advances_seedMissing hx (Handles.isBase_of_kind (n := 0) (.inr hk)) x.type
      · next c hc => exact .raise v (.constant hx hc)
      · apply advances_rule
        intro o
        split
        · exact advances_process o
        · exact .throw _
termination_by v.index

theorem advances_pass : Advances k overrides Anything (pass k) := by
  have begun : Advances k overrides Anything beginPass := .modify _ fun _ => rfl
  exact begun.bind fun _ _ => advances_visitAll advances_process k.instructions

/-- **Every call advances**, whether it fails or not. -/
theorem Call.advances (call : Call) : Advances k overrides Anything (call.make k) := by
  cases call with
  | pass => exact advances_pass
  | process v => exact advances_process v

/-- A call that reports a change has made some width larger, or has set one. -/
theorem Call.exists_grown {call : Call} {p q : Progress} (h : call.make k p = .ok true q) :
    ∃ u, ¬ q.width? u ≤ p.width? u := by
  cases call with
  | pass => exact (handles_of_pass h).exists_grown rfl
  | process v => exact (Handles.of_process h).exists_grown rfl

/-! ## Along calls -/

/-- The progress after some calls one after the other, whether they succeed or fail. -/
def drive (k : Kernel) (calls : List Call) (p : Progress) : Progress :=
  calls.foldl (fun p call => after (call.make k) p) p

/-- Widths are supplied after any calls in a row. -/
theorem supplied_drive (calls : List Call) {p : Progress} (hp : p.Supplied k overrides) :
    (drive k calls p).Supplied k overrides := by
  induction calls generalizing p with
  | nil => exact hp
  | cons call rest ih => exact ih (call.advances.supplied p hp)

end Infer

namespace Kernel

variable {k : Kernel} {overrides : Overrides}

/-- Seeds are supplied, and they give widths to arguments and globals. -/
theorem supplied_seeds (wf : k.WellFormed) {s : Widths} (hs : k.seeds overrides = .ok s) :
    Progress.Supplied k overrides { widths := s } where
  bases := (valid_seeds wf hs).bases
  widths := by
    intro v bits hv
    rcases (seeds_eq_some_iff wf hs).mp hv with ⟨hp, hseed⟩ | ⟨hg, hseed⟩
    · exact .param hp hseed
    · exact .global hg hseed

/-- **However inference is driven, it only moves up, among widths that were there to begin with.**
Whatever calls came before, and whether or not they and the next call fail: the next call loses no
width and keeps the order of entry, every width recorded was supplied, and if the call answers that
something changed then some value has a width for the first time, or a larger one than before. -/
theorem drive_advances {name : String} {script : List Step}
    (built : Kernel.ofScript? name script = some k) {s : Widths}
    (hs : k.seeds overrides = .ok s) (calls : List Infer.Call) (call : Infer.Call) :
    let p := Infer.drive k calls { widths := s }
    let q := Infer.after (call.make k) p
    p.widths.isBelow q.widths = true ∧ p.widths.recorded.keys <+: q.widths.recorded.keys ∧
      (∀ v bits, p.width? v = some bits ∨ q.width? v = some bits → k.Supplies overrides bits) ∧
      (Infer.answer? (call.make k) p = some true →
        ∃ v bits, q.width? v = some bits ∧ ∀ old, p.width? v = some old → old < bits) := by
  intro p q
  have hp : p.Supplied k overrides :=
    Infer.supplied_drive calls (supplied_seeds (ofScript?_wellFormed built) hs)
  have onward : p.Onward q := call.advances.onward p hp
  have supplied : q.Supplied k overrides := call.advances.supplied p hp
  refine ⟨Widths.isBelow_iff.mpr onward.width, onward.order, ?_, ?_⟩
  · intro v bits h
    exact h.elim (hp.widths v bits) (supplied.widths v bits)
  · intro changed
    -- an answer that something changed is truthful
    obtain ⟨u, hu⟩ := call.exists_grown (Infer.answer?_eq_some.mp changed)
    exact ⟨u, Width.not_le_iff.mp hu⟩

/-- A kernel with a call in it, which no rule covers. -/
def abandonedScript : List Step :=
  [.param "x" (.int 8), .block "entry", .moveTo ⟨0⟩, .binary .add ⟨0⟩ ⟨0⟩ "sum",
    .instruction .call [⟨1⟩] (.int 8) "answer", .binary .mul ⟨1⟩ ⟨0⟩ "product", .ret (some ⟨3⟩)]

def abandoned : Kernel :=
  (Kernel.ofScript? "abandoned" abandonedScript).getD (.empty "abandoned")

/-- The first pass is given up at the call and leaves the width of the sum behind. The product can
still be handled by hand afterwards, and that is a change. -/
theorem drive_advances_abandoned :
    Kernel.ofScript? "abandoned" abandonedScript = some abandoned ∧
      ∃ s, abandoned.seeds .empty = .ok s ∧
        Infer.answer? (Infer.pass abandoned) { widths := s } = none ∧
        (Infer.drive abandoned [.pass] { widths := s }).width? ⟨1⟩ = some 8 ∧
        ∃ v bits, (Infer.drive abandoned [.pass, .process ⟨3⟩] { widths := s }).width? v =
            some bits ∧
          ∀ old, (Infer.drive abandoned [.pass] { widths := s }).width? v = some old →
            old < bits := by
  have built : Kernel.ofScript? "abandoned" abandonedScript = some abandoned := rfl
  have hs : abandoned.seeds .empty = .ok (Widths.empty.raise ⟨0⟩ 8).2 := rfl
  obtain ⟨-, -, -, grown⟩ := drive_advances built hs [.pass] (.process ⟨3⟩)
  exact ⟨built, _, hs, by decide +kernel, by decide +kernel, grown (by decide +kernel)⟩

end Kernel

end Datapath
