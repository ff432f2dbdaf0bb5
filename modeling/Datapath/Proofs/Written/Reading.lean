import Datapath.Proofs.Written.Lexing

/-!
# What texts mean

Texts are read with the precedence of the source language: products and quotients first, then sums
and differences, shifts last, each of them from left to right. `Reading.read` does so token by
token. It keeps what is still to be done with the next operand, and parentheses put that aside.

Parentheses are written around sums below products and nowhere else, so not every text is read as
the expression that it was written for. `Formula.isReadable` says which ones are: no operand stands
where reading would group it differently. Their texts mean what they say
(`Kernel.eval_eq_of_written_eq`), and those of other expressions need not
(`Kernel.written_eq_not_eval_eq_differences`).
-/

namespace Datapath

/-! ## Reading -/

/-- What is still to be done with the next operand: it completes a product, which completes a sum,
which completes a shift. -/
structure Pending where
  shift : Option Int → Option Int
  sum : Option Int → Option Int
  product : Option Int → Option Int

def Pending.fresh : Pending := ⟨id, id, id⟩

/-- A text that is read up to some token: what is to be done, the value of the latest product, and
what is put aside by parentheses. -/
structure Reading where
  pending : Pending
  value : Option Int
  outer : List Pending

namespace Reading

variable {s t : Reading} {x y : Option Int} {o : Operator}

def total (s : Reading) : Option Int := s.pending.shift (s.pending.sum s.value)

def operand (s : Reading) (x : Option Int) : Reading :=
  { s with pending := { s.pending with product := id }, value := s.pending.product x }

/-- An operator completes what binds more tightly, and its own kind. -/
def operator (s : Reading) (o : Operator) : Reading :=
  match o with
  | .mul | .div => { s with pending := { s.pending with product := o.apply s.value } }
  | .add | .sub =>
    { s with pending := ⟨s.pending.shift, o.apply (s.pending.sum s.value), id⟩ }
  | .shr => { s with pending := ⟨o.apply s.total, id, id⟩ }

/-- One token is read. -/
def read (env : ValueId → Int) (s : Reading) : Token → Reading
  | .leaf x => s.operand (some (x.eval env))
  | .operator o => s.operator o
  | .opening => { s with pending := .fresh, outer := s.pending :: s.outer }
  | .closing =>
    match s.outer with
    | [] => s
    | pending :: outer => { s with pending, outer }.operand s.total

def run (env : ValueId → Int) (s : Reading) (ts : List Token) : Reading := ts.foldl (read env) s

end Reading

def meaning (env : ValueId → Int) (ts : List Token) : Option Int :=
  (Reading.run env ⟨.fresh, none, []⟩ ts).total

/-! ## Expressions that are read as they were meant -/

namespace Formula

/-- A product of leaves and sums: its factors may be grouped at will. -/
def isProduct : Formula → Bool
  | leaf _ => true
  | operation .mul left right =>
    (left.isSum || left.isProduct) && (right.isSum || right.isProduct)
  | _ => false

/-- Whether operands stand where reading leaves them as they are. -/
def fits (o : Operator) (left right : Formula) : Bool :=
  match o with
  | .add => !left.isShift && !right.isShift
  | .sub => !left.isShift && !right.isShift && !right.isSum
  | .mul => !left.isShift && (right.isSum || right.isProduct)
  | .div => !left.isShift && (right.isSum || right.isLeaf)
  | .shr => !right.isShift

/-- No operand stands where reading would group it differently. -/
def isReadable : Formula → Bool
  | leaf _ => true
  | operation o left right => fits o left right && left.isReadable && right.isReadable

end Formula

/-- Sums go through a function. -/
def Adds (f : Option Int → Option Int) : Prop :=
  ∀ o x y, o = .add ∨ o = .sub → f (Operator.apply o x y) = Operator.apply o (f x) y

/-- Products go through a function. -/
def Multiplies (f : Option Int → Option Int) : Prop :=
  ∀ x y, f (Operator.apply .mul x y) = Operator.apply .mul (f x) y

theorem adds_id : Adds id := fun _ _ _ _ => rfl

theorem adds_add (c : Option Int) : Adds (Operator.apply .add c) := by
  rintro o (_ | x) (_ | y) (rfl | rfl) <;> cases c <;>
    simp [Operator.apply, Operator.eval] <;> omega

theorem multiplies_mul (c : Option Int) : Multiplies (Operator.apply .mul c) := by
  rintro (_ | x) (_ | y) <;> cases c <;> simp [Operator.apply, Operator.eval, Int.mul_assoc]

/-! ## Reading what was written -/

namespace Reading

variable {env : ValueId → Int} {s t : Reading} {x y : Option Int} {o : Operator}

@[simp] theorem run_append (s : Reading) (ts us : List Token) :
    s.run env (ts ++ us) = (s.run env ts).run env us :=
  List.foldl_append

@[simp] theorem run_cons (s : Reading) (t : Token) (ts : List Token) :
    s.run env (t :: ts) = (s.read env t).run env ts :=
  rfl

@[simp] theorem run_nil (s : Reading) : s.run env [] = s := rfl

theorem operator_of_isTight (ho : o.isTight = true) : s.operator o
    = { s with pending := { s.pending with product := o.apply s.value } } := by
  cases o <;> first | rfl | simp [Operator.isTight] at ho

theorem operator_of_sum (ho : o = .add ∨ o = .sub) : s.operator o
    = { s with pending := ⟨s.pending.shift, o.apply (s.pending.sum s.value), id⟩ } := by
  rcases ho with rfl | rfl <;> rfl

/-- A sum is completed by `x` as far as the next shift can see. -/
structure Completes (s : Reading) (x : Option Int) (t : Reading) : Prop where
  outer : t.outer = s.outer
  shift : t.pending.shift = s.pending.shift
  sum : t.pending.sum t.value = s.pending.sum x

/-- An operand that is a term completes a sum. -/
theorem completes_operand (h : s.pending.product = id) : s.Completes x (s.operand x) where
  outer := rfl
  shift := rfl
  sum := by rw [operand, h, id]

/-- A sum may be completed by its left operand first. -/
theorem Completes.operator (ho : o = .add ∨ o = .sub) (adds : Adds s.pending.sum)
    (h : s.Completes x t) {u : Reading} (h' : (t.operator o).Completes y u) :
    s.Completes (o.apply x y) u := by
  rw [operator_of_sum ho] at h'
  refine ⟨h'.outer.trans h.outer, h'.shift.trans h.shift, ?_⟩
  -- what is added so far goes through the sum that waits
  rw [h'.sum, h.sum, adds o x y ho]

/-- A product may be completed by its left operand first. -/
theorem operand_operator_operand (ho : o.isTight = true)
    (h : s.pending.product (o.apply x y) = o.apply (s.pending.product x) y) :
    ((s.operand x).operator o).operand y = s.operand (o.apply x y) := by
  rw [operator_of_isTight ho]
  simp only [operand, h]

/-- What completes a sum is all that was read, if nothing else is to be done. -/
theorem Completes.total (h : s.Completes x t) (fresh : s.pending = .fresh) : t.total = x := by
  rw [Reading.total, h.shift, h.sum, fresh]
  rfl

end Reading

/-- An expression is read as it was meant, wherever its kind may stand. -/
structure Reads (env : ValueId → Int) (e : Formula) : Prop where
  term : e.isSum = false → e.isShift = false → ∀ s : Reading, s.pending.product = id →
    s.run env e.tokens = s.operand (e.eval env)
  product : e.isProduct = true → ∀ s : Reading, Multiplies s.pending.product →
    s.run env e.tokens = s.operand (e.eval env)
  sum : e.isShift = false → ∀ s : Reading, s.pending.product = id →
    (e.isSum = true → Adds s.pending.sum) → s.Completes (e.eval env) (s.run env e.tokens)
  whole : ∀ s : Reading, s.pending = .fresh →
    (s.run env e.tokens).outer = s.outer ∧ (s.run env e.tokens).total = e.eval env

namespace Reads

variable {env : ValueId → Int} {e left right : Formula} {s : Reading} {o : Operator}

/-! ### Below a product -/

/-- Parentheses make an operand of a sum. -/
theorem enclosed_of_isSum (h : Reads env e) (he : e.isSum = true) :
    s.run env (e.enclose e.tokens) = s.operand (e.eval env) := by
  -- inside parentheses reading starts afresh, and the total becomes an operand
  obtain ⟨houter, htotal⟩ := h.whole { s with pending := .fresh, outer := s.pending :: s.outer } rfl
  rw [Formula.enclose_of_isSum he, List.cons_append, Reading.run_cons, Reading.run_append,
    Reading.run_cons, Reading.run_nil]
  simp only [Reading.read, houter, htotal]
  rfl

theorem enclosed_term (h : Reads env e) (hshift : e.isShift = false)
    (hs : s.pending.product = id) :
    s.run env (e.enclose e.tokens) = s.operand (e.eval env) := by
  cases he : e.isSum with
  | true => exact h.enclosed_of_isSum he
  | false =>
      rw [Formula.enclose_of_not_isSum he]
      exact h.term he hshift s hs

theorem enclosed_factor (h : Reads env e) (he : (e.isSum || e.isProduct) = true)
    (hs : Multiplies s.pending.product) :
    s.run env (e.enclose e.tokens) = s.operand (e.eval env) := by
  -- a sum has parentheses around it, and a product needs none
  cases hsum : e.isSum with
  | true => exact h.enclosed_of_isSum hsum
  | false =>
      rw [Formula.enclose_of_not_isSum hsum]
      exact h.product (by simpa [hsum] using he) s hs

theorem enclosed_divisor (h : Reads env e) (he : (e.isSum || e.isLeaf) = true) :
    s.run env (e.enclose e.tokens) = s.operand (e.eval env) := by
  -- a sum has parentheses around it, and a leaf is an operand as it stands
  cases hsum : e.isSum with
  | true => exact h.enclosed_of_isSum hsum
  | false =>
      cases e with
      | leaf x => rfl
      | operation => simp [hsum, Formula.isLeaf] at he

/-! ### From the inside out -/

/-- A term may stand for a sum, and a sum for a whole text. -/
theorem of_term (term : ∀ s : Reading, s.pending.product = id →
      s.run env e.tokens = s.operand (e.eval env))
    (product : e.isProduct = true → ∀ s : Reading, Multiplies s.pending.product →
      s.run env e.tokens = s.operand (e.eval env)) : Reads env e where
  term _ _ := term
  product := product
  sum _ s hs _ := term s hs ▸ Reading.completes_operand hs
  whole s hs := by
    have hid : s.pending.product = id := by
      rw [hs]
      rfl
    rw [term s hid]
    exact ⟨rfl, (Reading.completes_operand hid).total hs⟩

theorem leaf (x : Leaf) : Reads env (.leaf x) :=
  of_term (fun _ _ => rfl) (fun _ _ _ => rfl)

/-- The left operand of a sum is completed before the right one is begun. -/
theorem completes_operation (hl : Reads env left) (ho : o = .add ∨ o = .sub)
    (hr : Reads env right) (hlshift : left.isShift = false) (hrshift : right.isShift = false)
    (hright : right.isSum = true → o = .add) (hs : s.pending.product = id)
    (adds : Adds s.pending.sum) :
    s.Completes (o.apply (left.eval env) (right.eval env))
      (s.run env (left.tokens ++ .operator o :: right.tokens)) := by
  rw [Reading.run_append, Reading.run_cons]
  refine (hl.sum hlshift s hs fun _ => adds).operator ho adds ?_
  refine hr.sum hrshift _ ?_ fun hsum => ?_
  · rcases ho with rfl | rfl <;> rfl
  · -- the operands of a sum on the right are added one by one, which a difference would not allow
    rw [hright hsum]
    exact adds_add _

theorem sum_operation (hl : Reads env left) (ho : o = .add ∨ o = .sub) (hr : Reads env right)
    (hlshift : left.isShift = false) (hrshift : right.isShift = false)
    (hright : right.isSum = true → o = .add) : Reads env (.operation o left right) := by
  have htokens : (Formula.operation o left right).tokens
      = left.tokens ++ .operator o :: right.tokens := by
    rcases ho with rfl | rfl <;> rfl
  have hcompletes {s : Reading} (hs : s.pending.product = id) (adds : Adds s.pending.sum) :=
    completes_operation hl ho hr hlshift hrshift hright hs adds
  constructor
  · -- a sum is neither a term nor a product
    rcases ho with rfl | rfl <;> rintro ⟨⟩
  · rcases ho with rfl | rfl <;> rintro ⟨⟩
  · intro _ s hs adds
    rw [htokens]
    exact hcompletes hs (adds (by rcases ho with rfl | rfl <;> rfl))
  · -- at the front nothing waits, and sums go through that
    intro s hs
    have h : s.Completes _ _ := hcompletes (by rw [hs]; rfl) (by rw [hs]; exact adds_id)
    rw [htokens]
    exact ⟨h.outer, h.total hs⟩

/-- The left operand of a product is multiplied in before the right one is begun. -/
theorem run_tight (ho : o.isTight = true)
    (hl : s.run env (left.enclose left.tokens) = s.operand (left.eval env))
    (hr : ∀ t : Reading, t.pending.product = o.apply (s.pending.product (left.eval env)) →
      t.run env (right.enclose right.tokens) = t.operand (right.eval env))
    (h : s.pending.product (o.apply (left.eval env) (right.eval env))
      = o.apply (s.pending.product (left.eval env)) (right.eval env)) :
    s.run env (Formula.operation o left right).tokens
      = s.operand ((Formula.operation o left right).eval env) := by
  -- the right operand is read with the product begun
  have hproduct : ((s.operand (left.eval env)).operator o).pending.product
      = o.apply (s.pending.product (left.eval env)) := by
    rw [Reading.operator_of_isTight ho]
    rfl
  calc s.run env (Formula.operation o left right).tokens
      = ((s.run env (left.enclose left.tokens)).operator o).run env
          (right.enclose right.tokens) := by
        rw [Formula.tokens, if_pos ho, Reading.run_append, Reading.run_cons, Reading.read]
    _ = ((s.operand (left.eval env)).operator o).operand (right.eval env) := by
        rw [hl, hr _ hproduct]
    _ = s.operand (o.apply (left.eval env) (right.eval env)) :=
        Reading.operand_operator_operand ho h

theorem product_operation (hl : Reads env left) (hr : Reads env right)
    (hlshift : left.isShift = false) (hright : (right.isSum || right.isProduct) = true) :
    Reads env (.operation .mul left right) := by
  refine of_term (fun s hs => ?_) fun hproduct s hs => ?_
  -- at the front of a product any term may stand, and behind a factor another product
  · refine run_tight rfl (hl.enclosed_term hlshift hs) (fun t ht => ?_) (by rw [hs]; rfl)
    exact hr.enclosed_factor hright (ht ▸ multiplies_mul _)
  · have hleft : (left.isSum || left.isProduct) = true := ((Bool.and_eq_true _ _).mp hproduct).1
    refine run_tight rfl (hl.enclosed_factor hleft hs) (fun t ht => ?_) (hs _ _)
    exact hr.enclosed_factor hright (ht ▸ multiplies_mul _)

theorem quotient_operation (hl : Reads env left) (hr : Reads env right)
    (hlshift : left.isShift = false) (hright : (right.isSum || right.isLeaf) = true) :
    Reads env (.operation .div left right) := by
  refine of_term (fun s hs => ?_) fun hproduct => by simp [Formula.isProduct] at hproduct
  exact run_tight rfl (hl.enclosed_term hlshift hs) (fun t _ => hr.enclosed_divisor hright)
    (by rw [hs]; rfl)

/-- All that stands before a shift is its left operand. -/
theorem shift_operation (hl : Reads env left) (hr : Reads env right)
    (hrshift : right.isShift = false) : Reads env (.operation .shr left right) where
  term _ h := by simp [Formula.isShift] at h
  product h := by simp [Formula.isProduct] at h
  sum h := by simp [Formula.isShift] at h
  whole s hs := by
    obtain ⟨houter, htotal⟩ := hl.whole s hs
    have h := hr.sum hrshift ((s.run env left.tokens).operator .shr) rfl fun _ => adds_id
    -- everything before the shift has been completed when the distance is read
    have htokens : s.run env (Formula.operation .shr left right).tokens
        = ((s.run env left.tokens).operator .shr).run env right.tokens := by
      rw [Formula.tokens, if_neg (by decide), Reading.run_append, Reading.run_cons, Reading.read]
    rw [htokens]
    refine ⟨h.outer.trans houter, ?_⟩
    rw [Reading.total, h.shift, h.sum, Reading.operator, htotal]
    rfl

end Reads

/-- What is readable is read as it was meant. -/
theorem reads_of_isReadable (env : ValueId → Int) {e : Formula} (h : e.isReadable = true) :
    Reads env e := by
  induction e with
  | leaf x => exact .leaf x
  | operation o left right ihl ihr =>
      simp only [Formula.isReadable, Bool.and_eq_true] at h
      obtain ⟨⟨hfits, hleft⟩, hright⟩ := h
      have hl := ihl hleft
      have hr := ihr hright
      -- what is asked of the operands depends on the operator
      cases o <;> simp only [Formula.fits, Bool.and_eq_true, Bool.not_eq_true'] at hfits
      case add => exact hl.sum_operation (.inl rfl) hr hfits.1 hfits.2 fun _ => rfl
      -- behind a minus sign a sum would be grouped differently, and none stands there
      case sub =>
        obtain ⟨⟨hlshift, hrshift⟩, hrsum⟩ := hfits
        exact hl.sum_operation (.inr rfl) hr hlshift hrshift fun hsum => by simp [hrsum] at hsum
      case mul => exact hl.product_operation hr hfits.1 hfits.2
      case div => exact hl.quotient_operation hr hfits.1 hfits.2
      case shr => exact hl.shift_operation hr hfits

/-- The text of a readable expression means what the expression is worth. -/
theorem meaning_tokens (env : ValueId → Int) {e : Formula} (h : e.isReadable = true) :
    meaning env e.tokens = e.eval env :=
  ((reads_of_isReadable env h).whole _ rfl).2

/-! ## Values with the same text -/

namespace Kernel

variable {k : Kernel} {u w : ValueId} {e f : Formula}

/-- **Texts mean what they say.** Two readable expressions of arguments under distinct identifiers
that are written in the same way have the same value for all integers, or none. -/
theorem eval_eq_of_written_eq {name : String} {script : List Step}
    (built : Kernel.ofScript? name script = some k) (distinct : (k.params.map k.nameOf).Nodup)
    (identifiers : ∀ v ∈ k.params, isIdentifier (k.nameOf v) = true)
    (hu : k.Expresses u e) (hw : k.Expresses w f)
    (readable : e.isReadable = true) (readable' : f.isReadable = true) {text : String}
    (written : k.written u = .ok text) (written' : k.written w = .ok text)
    (env : ValueId → Int) : e.eval env = f.eval env := by
  have wf := ofScript?_wellFormed built
  -- both expressions are written as the text
  have hchars : e.chars k.nameOf = f.chars k.nameOf := by
    have h := (written_of_expresses wf hu).symm.trans
      (written.trans (written'.symm.trans (written_of_expresses wf hw)))
    exact String.ofList_injective (Except.ok.inj h)
  -- and a text of separated tokens can be cut in one way only
  have htokens : e.tokens = f.tokens :=
    (legible distinct identifiers).tokens_eq e.separated_tokens f.separated_tokens
      (fun _ => hu.mem_leaves wf) (fun _ => hw.mem_leaves wf) hchars
  rw [← meaning_tokens env readable, htokens, meaning_tokens env readable']

/-! ### Three numbers in four groupings and two texts -/

/-- Of three numbers the last one is taken from what the other two make, or it is first taken from
the second. -/
def differencesScript : List Step :=
  [.param "a" (.int 8), .param "b" (.int 8), .param "c" (.int 8), .block "entry", .moveTo ⟨0⟩,
    .binary .sub ⟨0⟩ ⟨1⟩ "", .binary .sub ⟨3⟩ ⟨2⟩ "", .binary .sub ⟨1⟩ ⟨2⟩ "",
    .binary .sub ⟨0⟩ ⟨5⟩ "", .binary .add ⟨0⟩ ⟨1⟩ "", .binary .sub ⟨7⟩ ⟨2⟩ "",
    .binary .add ⟨0⟩ ⟨5⟩ "", .ret none]

def differences : Kernel :=
  (Kernel.ofScript? "differences" differencesScript).getD (.empty "differences")

namespace Differences

/-- `a - b` or `a + b`, less `c`. -/
def early (o : Operator) : Formula :=
  .operation .sub (.operation o (.leaf (.argument ⟨0⟩)) (.leaf (.argument ⟨1⟩)))
    (.leaf (.argument ⟨2⟩))

/-- The difference of `b` and `c`, taken from `a` or added to it. -/
def late (o : Operator) : Formula :=
  .operation o (.leaf (.argument ⟨0⟩))
    (.operation .sub (.leaf (.argument ⟨1⟩)) (.leaf (.argument ⟨2⟩)))

end Differences

open Differences

theorem built_differences :
    Kernel.ofScript? "differences" differencesScript = some differences := rfl

theorem distinct_differences : (differences.params.map differences.nameOf).Nodup := by
  decide +kernel

theorem identifiers_differences :
    ∀ v ∈ differences.params, isIdentifier (differences.nameOf v) = true := by
  decide +kernel

theorem expresses_argument_differences (n : Fin 3) :
    differences.Expresses ⟨n⟩ (.leaf (.argument ⟨n⟩)) := by
  fin_cases n <;> exact .argument rfl rfl rfl

theorem expresses_early :
    differences.Expresses ⟨4⟩ (early .sub) ∧ differences.Expresses ⟨8⟩ (early .add) := by
  have a := expresses_argument_differences 0
  have b := expresses_argument_differences 1
  have c := expresses_argument_differences 2
  constructor <;> exact .operation rfl rfl rfl (.operation rfl rfl rfl a b) c

theorem expresses_late :
    differences.Expresses ⟨6⟩ (late .sub) ∧ differences.Expresses ⟨9⟩ (late .add) := by
  have a := expresses_argument_differences 0
  have b := expresses_argument_differences 1
  have c := expresses_argument_differences 2
  constructor <;> exact .operation rfl rfl rfl a (.operation rfl rfl rfl b c)

theorem written_differences {v : ValueId} {e : Formula} {text : String}
    (h : differences.Expresses v e) (htext : String.ofList (e.chars differences.nameOf) = text) :
    differences.written v = .ok text :=
  (written_of_expresses (ofScript?_wellFormed built_differences) h).trans (congrArg _ htext)

/-- It does not matter to a sum which of its operands is the difference. -/
theorem eval_eq_of_written_eq_differences :
    differences.Expresses ⟨8⟩ (early .add) ∧ differences.Expresses ⟨9⟩ (late .add) ∧
      differences.written ⟨8⟩ = .ok "a + b - c" ∧ differences.written ⟨9⟩ = .ok "a + b - c" ∧
      ∀ env, (early .add).eval env = (late .add).eval env := by
  have hu := expresses_early.2
  have hw := expresses_late.2
  have written : differences.written ⟨8⟩ = .ok "a + b - c" :=
    written_differences hu (by decide +kernel)
  have written' : differences.written ⟨9⟩ = .ok "a + b - c" :=
    written_differences hw (by decide +kernel)
  exact ⟨hu, hw, written, written', eval_eq_of_written_eq built_differences distinct_differences
    identifiers_differences hu hw rfl rfl written written'⟩

/-- A difference that is taken away is written like one that something is taken from. For `0`, `0`
and `1` one of them is `-1` and the other `1`. -/
theorem written_eq_not_eval_eq_differences :
    Kernel.ofScript? "differences" differencesScript = some differences ∧
      (differences.params.map differences.nameOf).Nodup ∧
      (∀ v ∈ differences.params, isIdentifier (differences.nameOf v) = true) ∧
      differences.Expresses ⟨4⟩ (early .sub) ∧ differences.Expresses ⟨6⟩ (late .sub) ∧
      differences.written ⟨4⟩ = .ok "a - b - c" ∧ differences.written ⟨6⟩ = .ok "a - b - c" ∧
      ∃ env, (early .sub).eval env = some (-1) ∧ (late .sub).eval env = some 1 :=
  ⟨built_differences, distinct_differences, identifiers_differences, expresses_early.1,
    expresses_late.1, written_differences expresses_early.1 (by decide +kernel),
    written_differences expresses_late.1 (by decide +kernel),
    fun v => if v = ⟨2⟩ then 1 else 0, by decide, by decide⟩

end Kernel

end Datapath
