import Datapath.Fault
import Mathlib.Data.List.Forall2

/-!
# Taking a run apart

An analysis runs in `Outcome`, and a call on a builder or a step of inference in `EStateM`. What a
proof wants from a successful run is the *runs of its parts*: which intermediate answers and states
there were. The lemmas below say this for a sequence of two steps, and for a step repeated along a
list what one repetition preserves.
-/

namespace Datapath

variable {ε σ α β : Type}

/-! ## Outcomes -/

namespace Outcome

/-- A sequence succeeds if both parts do, the second with the first answer. -/
theorem bind_eq_ok {x : Except ε α} {f : α → Except ε β} {b : β} :
    (x >>= f) = .ok b ↔ ∃ a, x = .ok a ∧ f a = .ok b := by
  cases x with
  | error e => simp [bind, Except.bind]
  | ok a => simp [bind, Except.bind]

/-- A sequence fails where the first part does, or where the second does. -/
theorem bind_eq_error {x : Except ε α} {f : α → Except ε β} {e : ε} :
    (x >>= f) = .error e ↔ x = .error e ∨ ∃ a, x = .ok a ∧ f a = .error e := by
  cases x with
  | error d => simp [bind, Except.bind]
  | ok a => simp [bind, Except.bind]

@[simp] theorem pure_eq_ok {a b : α} : (pure a : Except ε α) = .ok b ↔ a = b := by
  simp [pure, Except.pure]

theorem exists_eq_ok_iff {x : Except ε α} : (∃ a, x = .ok a) ↔ ∀ e, x ≠ .error e := by
  cases x <;> simp

/-- As an option, a result can be computed and compared. -/
theorem toOption_eq_some {x : Except ε α} {a : α} : x.toOption = some a ↔ x = .ok a := by
  cases x <;> simp [Except.toOption]

/-- Something is known of the result, so there is one. -/
theorem exists_of_toOption_map {x : Except ε α} {f : α → β} {b : β}
    (h : x.toOption.map f = some b) : ∃ a, x = .ok a ∧ f a = b := by
  obtain ⟨a, ha, hb⟩ := Option.map_eq_some_iff.mp h
  exact ⟨a, toOption_eq_some.mp ha, hb⟩

@[simp] theorem throw_eq_ok {e : ε} {a : α} : (throw e : Except ε α) ≠ .ok a := nofun

@[simp] theorem reject_eq_ok {why : Rejection} {a : α} :
    (reject why : Outcome α) ≠ .ok a := nofun

@[simp] theorem reject_eq_error {why : Rejection} {fault : Fault} :
    (reject why : Outcome α) = .error fault ↔ .rejected why = fault := by
  simp [reject, throw, throwThe, MonadExceptOf.throw]

/-- What holds at first and is preserved by each successful step holds at the end. -/
theorem foldlM_induction {f : β → α → Except ε β} {motive : β → Prop}
    (step : ∀ b a c, motive b → f b a = .ok c → motive c) :
    ∀ {l : List α} {b c : β}, motive b → l.foldlM f b = .ok c → motive c
  | [], b, c, hb, h => by
      simp only [List.foldlM_nil, pure_eq_ok] at h
      exact h ▸ hb
  | a :: l, b, c, hb, h => by
      rw [List.foldlM_cons, bind_eq_ok] at h
      obtain ⟨d, hd, hl⟩ := h
      exact foldlM_induction step (step b a d hb hd) hl

/-- The same for a property of what was gone through so far. Each element is met where it stands. -/
theorem foldlM_prefix_induction {f : β → α → Except ε β} {motive : List α → β → Prop} {l : List α}
    (step : ∀ done a rest b c, l = done ++ a :: rest → motive done b → f b a = .ok c →
      motive (done ++ [a]) c) {b c : β} (start : motive [] b) (h : l.foldlM f b = .ok c) :
    motive l c := by
  suffices later : ∀ (rest done : List α) (b : β), l = done ++ rest → motive done b →
      rest.foldlM f b = .ok c → motive l c from later l [] b rfl start h
  intro rest
  induction rest with
  | nil =>
      rintro done b rfl hb h
      obtain rfl := pure_eq_ok.mp h
      rwa [List.append_nil]
  | cons a rest ih =>
      intro done b hl hb h
      rw [List.foldlM_cons, bind_eq_ok] at h
      obtain ⟨d, hd, h⟩ := h
      exact ih (done ++ [a]) d (by simp [hl]) (step done a rest b d hl hb hd) h

/-- If each step succeeds where a property holds, and keeps it, then the whole fold does. -/
theorem exists_foldlM_eq_ok {f : β → α → Except ε β} {motive : List α → β → Prop} {l : List α}
    (step : ∀ done a rest b, l = done ++ a :: rest → motive done b →
      ∃ c, f b a = .ok c ∧ motive (done ++ [a]) c) {b : β} (start : motive [] b) :
    ∃ c, l.foldlM f b = .ok c ∧ motive l c := by
  suffices later : ∀ (rest done : List α) (b : β), l = done ++ rest → motive done b →
      ∃ c, rest.foldlM f b = .ok c ∧ motive l c from later l [] b rfl start
  intro rest
  induction rest with
  | nil =>
      rintro done b rfl hb
      rw [List.append_nil]
      exact ⟨b, rfl, hb⟩
  | cons a rest ih =>
      intro done b hl hb
      obtain ⟨c, hc, hd⟩ := step done a rest b hl hb
      obtain ⟨d, hrest, hd⟩ := ih (done ++ [a]) c (by simp [hl]) hd
      exact ⟨d, by rw [List.foldlM_cons, hc]; exact hrest, hd⟩

/-- Steps that succeed from anywhere fold to a success. -/
theorem exists_foldlM_eq_ok_of_forall {f : β → α → Except ε β} {l : List α}
    (step : ∀ a ∈ l, ∀ b, ∃ c, f b a = .ok c) (b : β) : ∃ c, l.foldlM f b = .ok c := by
  obtain ⟨c, hc, -⟩ := exists_foldlM_eq_ok (f := f) (motive := fun _ _ => True) (l := l)
    (fun done a rest b hl _ => (step a (by simp [hl]) b).imp fun _ h => ⟨h, trivial⟩)
    (b := b) trivial
  exact ⟨c, hc⟩

/-- A fold along nested lists is a fold of folds. -/
theorem foldlM_flatMap {γ : Type} (f : β → γ → Except ε β) (items : α → List γ) (l : List α)
    (b : β) : (l.flatMap items).foldlM f b = l.foldlM (fun b a => (items a).foldlM f b) b := by
  induction l generalizing b with
  | nil => rfl
  | cons a l ih =>
      rw [List.flatMap_cons, List.foldlM_append, List.foldlM_cons]
      -- the inner folds are the same, and so is what follows each of them
      congr 1
      funext c
      exact ih c

/-- A fold that fails does so at one of its steps. -/
theorem exists_of_foldlM_eq_error {f : β → α → Except ε β} {e : ε} :
    ∀ {l : List α} {b : β}, l.foldlM f b = .error e → ∃ c, ∃ a ∈ l, f c a = .error e
  | [], b, h => by simp [pure, Except.pure] at h
  | a :: l, b, h => by
      rw [List.foldlM_cons, bind_eq_error] at h
      -- the first step fails, or a later one
      rcases h with h | ⟨c, -, h⟩
      · exact ⟨b, a, List.mem_cons_self, h⟩
      · obtain ⟨d, a', ha', h⟩ := exists_of_foldlM_eq_error h
        exact ⟨d, a', List.mem_cons_of_mem a ha', h⟩

/-- A fold that succeeds does so at each of its steps, and what the steps preserve holds there. -/
theorem exists_preserved_of_foldlM_eq_ok {f : β → α → Except ε β} {motive : β → Prop}
    (step : ∀ b a c, motive b → f b a = .ok c → motive c) :
    ∀ {l : List α} {b c : β}, motive b → l.foldlM f b = .ok c →
      ∀ a ∈ l, ∃ d e, motive d ∧ f d a = .ok e
  | a :: l, b, c, hb, h, x, hx => by
      rw [List.foldlM_cons, bind_eq_ok] at h
      obtain ⟨d, hd, h⟩ := h
      rcases List.mem_cons.mp hx with rfl | hx
      · -- the first step, which begins where the motive holds
        exact ⟨b, d, hb, hd⟩
      · exact exists_preserved_of_foldlM_eq_ok step (step b a d hb hd) h x hx

/-- A fold that succeeds does so at each of its steps. -/
theorem exists_of_foldlM_eq_ok {f : β → α → Except ε β} {l : List α} {b c : β}
    (h : l.foldlM f b = .ok c) : ∀ a ∈ l, ∃ d e, f d a = .ok e := by
  intro a ha
  obtain ⟨d, e, -, hstep⟩ := exists_preserved_of_foldlM_eq_ok (motive := fun _ => True)
    (fun _ _ _ _ _ => trivial) trivial h a ha
  exact ⟨d, e, hstep⟩

/-- A map that succeeds does so at each element, and its answers are those. -/
theorem forall₂_of_mapM {f : α → Except ε β} :
    ∀ {l : List α} {bs : List β}, l.mapM f = .ok bs → List.Forall₂ (fun a b => f a = .ok b) l bs
  | [], bs, h => by
      obtain rfl := pure_eq_ok.mp h
      exact .nil
  | a :: l, bs, h => by
      rw [List.mapM_cons, bind_eq_ok] at h
      obtain ⟨b, hb, h⟩ := h
      obtain ⟨bs', hbs, h⟩ := bind_eq_ok.mp h
      obtain rfl := pure_eq_ok.mp h
      exact .cons hb (forall₂_of_mapM hbs)

/-- A map that succeeds does so at each element. -/
theorem exists_of_mapM_eq_ok {f : α → Except ε β} {l : List α} {bs : List β}
    (h : l.mapM f = .ok bs) : ∀ a ∈ l, ∃ b, f a = .ok b := by
  intro a ha
  replace h := forall₂_of_mapM h
  induction h with
  | nil => cases ha
  | cons hb _ ih =>
      rcases List.mem_cons.mp ha with rfl | ha
      · exact ⟨_, hb⟩
      · exact ih ha

/-- Each answer of a map is that of an element. -/
theorem exists_of_mem_mapM {f : α → Except ε β} {l : List α} {bs : List β}
    (h : l.mapM f = .ok bs) : ∀ b ∈ bs, ∃ a ∈ l, f a = .ok b := by
  intro b hb
  replace h := forall₂_of_mapM h
  induction h with
  | nil => cases hb
  | cons ha _ ih =>
      -- the answer of the first element, or of a later one
      rcases List.mem_cons.mp hb with rfl | hb
      · exact ⟨_, List.mem_cons_self, ha⟩
      · obtain ⟨a, ha, hf⟩ := ih hb
        exact ⟨a, List.mem_cons_of_mem _ ha, hf⟩

/-- The answer of each element is among those of the map. -/
theorem mem_of_mapM {f : α → Except ε β} {l : List α} {bs : List β} (h : l.mapM f = .ok bs) {a : α}
    {b : β} (ha : a ∈ l) (hb : f a = .ok b) : b ∈ bs := by
  replace h := forall₂_of_mapM h
  induction h with
  | nil => cases ha
  | cons hc _ ih =>
      rcases List.mem_cons.mp ha with rfl | ha
      · obtain rfl := Except.ok.inj (hb.symm.trans hc)
        exact List.mem_cons_self
      · exact List.mem_cons_of_mem _ (ih ha)

/-- If each element has an answer with a property then the map succeeds, with answers of that
property. -/
theorem exists_mapM_eq_ok_forall₂ {f : α → Except ε β} {motive : α → β → Prop} :
    ∀ {l : List α}, (∀ a ∈ l, ∃ b, f a = .ok b ∧ motive a b) →
      ∃ bs, l.mapM f = .ok bs ∧ List.Forall₂ motive l bs
  | [], _ => ⟨[], rfl, .nil⟩
  | a :: l, h => by
      obtain ⟨b, hb, hmotive⟩ := h a List.mem_cons_self
      obtain ⟨bs, hbs, hrest⟩ := exists_mapM_eq_ok_forall₂ fun x hx =>
        h x (List.mem_cons_of_mem a hx)
      exact ⟨b :: bs, by rw [List.mapM_cons, hb, hbs]; rfl, .cons hmotive hrest⟩

/-- If each element has an answer then the map succeeds. -/
theorem exists_mapM_eq_ok {f : α → Except ε β} {l : List α} (h : ∀ a ∈ l, ∃ b, f a = .ok b) :
    ∃ bs, l.mapM f = .ok bs := by
  obtain ⟨bs, hbs, -⟩ := exists_mapM_eq_ok_forall₂ (motive := fun _ _ => True) fun a ha =>
    (h a ha).imp fun _ hb => ⟨hb, trivial⟩
  exact ⟨bs, hbs⟩

theorem mapM_congr {f g : α → Except ε β} :
    ∀ {l : List α}, (∀ a ∈ l, f a = g a) → l.mapM f = l.mapM g
  | [], _ => rfl
  | a :: l, h => by
      rw [List.mapM_cons, List.mapM_cons, h a List.mem_cons_self,
        mapM_congr fun x hx => h x (List.mem_cons_of_mem a hx)]

/-- A map fails at its first element, or has an answer there and fails further on. -/
theorem mapM_cons_eq_error {f : α → Except ε β} {e : ε} {a : α} {l : List α} :
    (a :: l).mapM f = .error e ↔ f a = .error e ∨ (∃ b, f a = .ok b) ∧ l.mapM f = .error e := by
  rw [List.mapM_cons, bind_eq_error]
  constructor
  · rintro (h | ⟨b, hb, h⟩)
    · exact .inl h
    · rcases bind_eq_error.mp h with h | ⟨bs, -, h⟩
      · exact .inr ⟨⟨b, hb⟩, h⟩
      · cases h
  · rintro (h | ⟨⟨b, hb⟩, h⟩)
    · exact .inl h
    · exact .inr ⟨b, hb, bind_eq_error.mpr (.inl h)⟩

/-- A map fails at the first element that fails. -/
theorem mapM_eq_error_iff {f : α → Except ε β} {e : ε} {l : List α} :
    l.mapM f = .error e ↔ ∃ before a after, l = before ++ a :: after ∧
      (∀ x ∈ before, ∃ b, f x = .ok b) ∧ f a = .error e := by
  induction l with
  | nil => simp [pure, Except.pure]
  | cons a l ih =>
      rw [mapM_cons_eq_error, ih]
      constructor
      · rintro (h | ⟨ha, before, x, after, rfl, hbefore, h⟩)
        · exact ⟨[], a, l, rfl, nofun, h⟩
        · exact ⟨a :: before, x, after, rfl, List.forall_mem_cons.mpr ⟨ha, hbefore⟩, h⟩
      · rintro ⟨before, x, after, hsplit, hbefore, h⟩
        -- the first element fails, or it is among those that do not
        cases before with
        | nil =>
            cases hsplit
            exact .inl h
        | cons y before =>
            cases hsplit
            obtain ⟨ha, hbefore⟩ := List.forall_mem_cons.mp hbefore
            exact .inr ⟨ha, before, x, after, rfl, hbefore, h⟩

/-- A map that fails does so at one of its elements. -/
theorem exists_of_mapM_eq_error {f : α → Except ε β} {e : ε} {l : List α}
    (h : l.mapM f = .error e) : ∃ a ∈ l, f a = .error e := by
  obtain ⟨before, a, after, rfl, -, ha⟩ := mapM_eq_error_iff.mp h
  exact ⟨a, by simp, ha⟩

/-- A search that fails does so at one of the elements that it looks at. -/
theorem exists_of_findSomeM?_eq_error {f : α → Except ε (Option β)} {e : ε} :
    ∀ {l : List α}, l.findSomeM? f = .error e → ∃ a ∈ l, f a = .error e
  | [], h => by simp [List.findSomeM?, pure, Except.pure] at h
  | a :: l, h => by
      rw [List.findSomeM?, bind_eq_error] at h
      rcases h with h | ⟨answer, -, h⟩
      · exact ⟨a, List.mem_cons_self, h⟩
      · -- a search that has found something looks no further
        cases answer with
        | some b => cases h
        | none =>
            obtain ⟨x, hx, h⟩ := exists_of_findSomeM?_eq_error h
            exact ⟨x, List.mem_cons_of_mem a hx, h⟩

/-- A search that finds something has found nothing before. -/
theorem findSomeM?_eq_ok_some {f : α → Except ε (Option β)} {b : β} :
    ∀ {l : List α}, l.findSomeM? f = .ok (some b) →
      ∃ before a after, l = before ++ a :: after ∧ (∀ x ∈ before, f x = .ok none) ∧
        f a = .ok (some b)
  | [], h => by simp [List.findSomeM?] at h
  | a :: l, h => by
      rw [List.findSomeM?, bind_eq_ok] at h
      obtain ⟨answer, ha, h⟩ := h
      cases answer with
      | some c =>
          -- found at once
          obtain rfl := Option.some.inj (pure_eq_ok.mp h)
          exact ⟨[], a, l, rfl, nofun, ha⟩
      | none =>
          obtain ⟨before, x, after, rfl, hbefore, hx⟩ := findSomeM?_eq_ok_some h
          exact ⟨a :: before, x, after, rfl, List.forall_mem_cons.mpr ⟨ha, hbefore⟩, hx⟩

end Outcome

/-! ## Runs with a state -/

namespace Run

/-- A sequence succeeds if both parts do, the second from the state that the first leaves. -/
theorem bind_eq_ok {x : EStateM ε σ α} {f : α → EStateM ε σ β} {s t : σ} {b : β} :
    (x >>= f) s = .ok b t ↔ ∃ a r, x s = .ok a r ∧ f a r = .ok b t := by
  show EStateM.bind x f s = _ ↔ _
  unfold EStateM.bind
  cases x s with
  | error d r => simp
  | ok a r => simp [and_assoc]

/-- The state of a failure is the one where it happened. -/
theorem bind_eq_error {x : EStateM ε σ α} {f : α → EStateM ε σ β} {s t : σ} {e : ε} :
    (x >>= f) s = .error e t ↔
      x s = .error e t ∨ ∃ a r, x s = .ok a r ∧ f a r = .error e t := by
  show EStateM.bind x f s = _ ↔ _
  unfold EStateM.bind
  cases x s with
  | error d r => simp
  | ok a r => simp [and_assoc]

theorem map_eq_ok {f : α → β} {x : EStateM ε σ α} {s t : σ} {b : β} :
    (f <$> x) s = .ok b t ↔ ∃ a, x s = .ok a t ∧ f a = b := by
  show EStateM.map f x s = _ ↔ _
  unfold EStateM.map
  cases x s with
  | error d r => simp
  | ok a r => simp [and_assoc, and_comm]

theorem map_eq_error {f : α → β} {x : EStateM ε σ α} {s t : σ} {e : ε} :
    (f <$> x) s = .error e t ↔ x s = .error e t := by
  show EStateM.map f x s = _ ↔ _
  unfold EStateM.map
  cases x s with
  | error d r => simp
  | ok a r => simp

@[simp] theorem pure_eq_ok {a b : α} {s t : σ} :
    (pure a : EStateM ε σ α) s = .ok b t ↔ a = b ∧ s = t := by
  show EStateM.Result.ok a s = _ ↔ _
  simp

@[simp] theorem get_eq_ok {s t r : σ} :
    (get : EStateM ε σ σ) s = .ok r t ↔ s = r ∧ s = t := by
  show EStateM.Result.ok s s = _ ↔ _
  simp

@[simp] theorem modify_eq_ok {f : σ → σ} {u : PUnit} {s t : σ} :
    (modify f : EStateM ε σ PUnit) s = .ok u t ↔ f s = t := by
  show EStateM.Result.ok PUnit.unit (f s) = _ ↔ _
  simp

@[simp] theorem modifyGet_eq_ok {f : σ → α × σ} {a : α} {s t : σ} :
    (modifyGet f : EStateM ε σ α) s = .ok a t ↔ f s = (a, t) := by
  show EStateM.Result.ok (f s).1 (f s).2 = _ ↔ _
  rw [EStateM.Result.ok.injEq, Prod.ext_iff]

@[simp] theorem throw_eq_ok {e : ε} {a : α} {s t : σ} :
    (throw e : EStateM ε σ α) s ≠ .ok a t := nofun

@[simp] theorem reject_eq_ok {why : Rejection} {a : α} {s t : σ} :
    (reject why : EStateM Fault σ α) s ≠ .ok a t := nofun

@[simp] theorem ofExcept_eq_ok {x : Except ε α} {a : α} {s t : σ} :
    (MonadExcept.ofExcept x : EStateM ε σ α) s = .ok a t ↔ x = .ok a ∧ s = t := by
  cases x with
  | error e =>
      show EStateM.Result.error e s = _ ↔ _
      simp
  | ok b =>
      show EStateM.Result.ok b s = _ ↔ _
      simp

end Run

end Datapath
