import Datapath.Proofs.Written.Formula
import Mathlib

/-!
# Texts and their tokens

The text of an expression can be cut into its tokens again, in one way only. Blanks and parentheses
belong to no leaf, and two leaves never stand side by side, so a leaf ends where the first blank or
parenthesis stands.

What leaves have to satisfy for that is `Legible`. Arguments under distinct identifiers do, next to
decimal constants: that is `Kernel.legible`.
-/

namespace Datapath

/-! ## Legible leaves -/

def isPlain (c : Char) : Bool := c != ' ' && c != '(' && c != ')'

/-- A name that reads as one word and does not begin like a number, as identifiers do. -/
def isIdentifier (name : String) : Bool :=
  match name.toList with
  | [] => false
  | c :: cs => !c.isDigit && c != '-' && (c :: cs).all isPlain

def Leaf.chars (name : ValueId → String) (x : Leaf) : List Char := (Token.leaf x).chars name

/-- The leaves of a set are words, and different ones are different words. -/
structure Legible (name : ValueId → String) (leaves : Set Leaf) : Prop where
  ne_nil : ∀ x ∈ leaves, x.chars name ≠ []
  plain : ∀ x ∈ leaves, ∀ c ∈ x.chars name, isPlain c = true
  injective : Set.InjOn (Leaf.chars name) leaves

/-! ## Separated leaves -/

namespace Token

def isLeaf : Token → Bool
  | leaf _ => true
  | _ => false

/-- One of two neighbours is not a leaf. -/
def Apart (t u : Token) : Prop := t.isLeaf = false ∨ u.isLeaf = false

end Token

def Separated (ts : List Token) : Prop := ts.IsChain Token.Apart

theorem separated_around {t : Token} {ts us : List Token} (ht : t.isLeaf = false)
    (hts : Separated ts) (hus : Separated us) : Separated (ts ++ t :: us) := by
  refine List.isChain_append.mpr ⟨hts, List.isChain_cons.mpr ⟨fun _ _ => .inl ht, hus⟩, ?_⟩
  rintro _ - _ ⟨⟩
  exact .inr ht

namespace Formula

theorem separated_enclose (e : Formula) {ts : List Token} (h : Separated ts) :
    Separated (e.enclose ts) := by
  unfold enclose
  split
  · -- parentheses are no leaves, so they may stand next to anything
    have closed : Separated (ts ++ [.closing]) := separated_around rfl h .nil
    exact (separated_around rfl .nil closed : Separated ([] ++ .opening :: (ts ++ [.closing])))
  · exact h

theorem separated_tokens (e : Formula) : Separated e.tokens := by
  induction e with
  | leaf x => exact .singleton _
  | operation o left right ihl ihr =>
      unfold tokens
      -- the operator in the middle keeps the leaves on its two sides apart
      split
      · exact separated_around rfl (left.separated_enclose ihl) (right.separated_enclose ihr)
      · exact separated_around rfl ihl ihr

end Formula

/-! ## Cutting -/

namespace Token

/-- The characters that a token begins with before the first blank or parenthesis. -/
def word (name : ValueId → String) : Token → List Char
  | leaf x => x.chars name
  | _ => []

theorem takeWhile_chars_append {name : ValueId → String} {t : Token} (h : t.isLeaf = false)
    (rest : List Char) : (t.chars name ++ rest).takeWhile isPlain = [] := by
  cases t with
  | leaf x => simp [isLeaf] at h
  | operator | opening | closing => simp [chars, isPlain]

end Token

namespace Legible

variable {name : ValueId → String} {leaves : Set Leaf} {t u : Token} {ts us : List Token}

theorem chars_ne_nil (legible : Legible name leaves) (ht : ∀ x, t = .leaf x → x ∈ leaves) :
    t.chars name ≠ [] := by
  cases t with
  | leaf x => exact legible.ne_nil x (ht x rfl)
  | operator | opening | closing => simp [Token.chars]

/-- The text of separated tokens begins with the word of the first one. -/
theorem takeWhile_eq_word (legible : Legible name leaves) (hs : Separated (t :: ts))
    (ht : ∀ x, t = .leaf x → x ∈ leaves) :
    ((t :: ts).flatMap (Token.chars name)).takeWhile isPlain = t.word name := by
  rw [List.flatMap_cons]
  cases t with
  | leaf x =>
      -- the leaf ends where the next token begins, which is no leaf
      have hrest : (ts.flatMap (Token.chars name)).takeWhile isPlain = [] := by
        cases ts with
        | nil => rfl
        | cons u us =>
            have hu : u.isLeaf = false :=
              (List.isChain_cons_cons.mp hs).1.resolve_left (by simp [Token.isLeaf])
            rw [List.flatMap_cons]
            exact Token.takeWhile_chars_append hu _
      have hplain : ∀ c ∈ Token.chars name (.leaf x), isPlain c = true := legible.plain x (ht x rfl)
      rw [List.takeWhile_append_of_pos hplain, hrest, List.append_nil]
      rfl
  | operator | opening | closing => exact Token.takeWhile_chars_append rfl _

/-- Two texts that are the same begin with the same token. -/
theorem head_eq (legible : Legible name leaves) (hs : Separated (t :: ts))
    (hs' : Separated (u :: us)) (ht : ∀ x, t = .leaf x → x ∈ leaves)
    (hu : ∀ x, u = .leaf x → x ∈ leaves)
    (h : (t :: ts).flatMap (Token.chars name) = (u :: us).flatMap (Token.chars name)) : t = u := by
  -- equal texts begin with equal words
  have hword : t.word name = u.word name := by
    rw [← legible.takeWhile_eq_word hs ht, ← legible.takeWhile_eq_word hs' hu, h]
  cases t with
  | leaf x =>
      cases u with
      | leaf y => rw [legible.injective (ht x rfl) (hu y rfl) hword]
      -- no other token begins with a word
      | _ => exact absurd hword (legible.ne_nil x (ht x rfl))
  | operator o =>
      cases u with
      | leaf y => exact absurd hword.symm (legible.ne_nil y (hu y rfl))
      -- operators differ in the character behind the blank
      | operator o' => cases o <;> cases o' <;> simp_all [Token.chars, Operator.symbol]
      | _ => simp [Token.chars] at h
  | opening | closing =>
      cases u with
      | leaf y => exact absurd hword.symm (legible.ne_nil y (hu y rfl))
      | _ => simp_all [Token.chars]

/-- The text of separated tokens determines them. -/
theorem tokens_eq (legible : Legible name leaves) (hs : Separated ts) (hs' : Separated us)
    (ht : ∀ x, .leaf x ∈ ts → x ∈ leaves) (hu : ∀ x, .leaf x ∈ us → x ∈ leaves)
    (h : ts.flatMap (Token.chars name) = us.flatMap (Token.chars name)) : ts = us := by
  induction ts generalizing us with
  | nil =>
      cases us with
      | nil => rfl
      | cons u us =>
          -- no token has an empty text
          have hne : u.chars name ≠ [] := legible.chars_ne_nil fun x hx => hu x (by simp [hx])
          exact absurd (List.append_eq_nil_iff.mp h.symm).1 hne
  | cons t ts ih =>
      cases us with
      | nil =>
          have hne : t.chars name ≠ [] := legible.chars_ne_nil fun x hx => ht x (by simp [hx])
          exact absurd (List.append_eq_nil_iff.mp h).1 hne
      | cons u us =>
          obtain rfl : t = u := legible.head_eq hs hs' (fun x hx => ht x (by simp [hx]))
            (fun x hx => hu x (by simp [hx])) h
          -- without the first token the texts are the same again
          have htail : ts = us := ih hs.tail hs'.tail (fun x hx => ht x (.tail _ hx))
            (fun x hx => hu x (.tail _ hx)) (List.append_cancel_left h)
          rw [htail]

end Legible

/-! ## Arguments and constants -/

namespace Formula

theorem leaf_mem_enclose {e : Formula} {x : Leaf} {ts : List Token} :
    .leaf x ∈ e.enclose ts ↔ .leaf x ∈ ts := by
  unfold enclose
  split <;> simp

theorem leaf_mem_tokens_operation {o : Operator} {left right : Formula} {x : Leaf} :
    .leaf x ∈ (operation o left right).tokens ↔ .leaf x ∈ left.tokens ∨ .leaf x ∈ right.tokens := by
  rw [tokens]
  split <;> simp [leaf_mem_enclose]

end Formula

/-- A number is written in digits, with a minus sign in front of a negative one. -/
theorem exists_toString_eq (z : Int) : ∃ c cs, (toString z).toList = c :: cs ∧
    (c.isDigit = true ∨ c = '-') ∧ ∀ d ∈ cs, d.isDigit = true := by
  -- the decimal form of a natural number has digits only
  have hdigit (n : Nat) : ∀ d ∈ n.repr.toList, d.isDigit = true := by
    intro d hd
    rw [Nat.toList_repr] at hd
    exact Nat.isDigit_of_mem_toDigits (by decide) (by decide) hd
  rw [Int.toString_eq_repr, Int.repr_eq_if]
  split
  · cases h : z.toNat.repr.toList with
    | nil => exact absurd (Nat.toList_repr.symm.trans h) Nat.toDigits_ne_nil
    | cons c cs =>
        have hall := h ▸ hdigit z.toNat
        exact ⟨c, cs, rfl, .inl (hall c (by simp)), fun d hd => hall d (.tail _ hd)⟩
  · exact ⟨'-', _, String.toList_append, .inr rfl, hdigit _⟩

theorem isPlain_of_isDigit {c : Char} (h : c.isDigit = true) : isPlain c = true := by
  have hne (d : Char) (hd : d.isDigit = false) : c ≠ d := by
    rintro rfl
    simp [hd] at h
  simp [isPlain, hne ' ' rfl, hne '(' rfl, hne ')' rfl]

theorem exists_toList_of_isIdentifier {name : String} (h : isIdentifier name = true) :
    ∃ c cs, name.toList = c :: cs ∧ c.isDigit = false ∧ c ≠ '-' ∧
      ∀ d ∈ c :: cs, isPlain d = true := by
  unfold isIdentifier at h
  cases hn : name.toList with
  | nil => simp [hn] at h
  | cons c cs =>
      simp only [hn, Bool.and_eq_true, Bool.not_eq_true', bne_iff_ne, ne_eq, List.all_eq_true] at h
      exact ⟨c, cs, rfl, h.1.1, h.1.2, h.2⟩

/-- No number is an identifier. -/
theorem toString_ne_of_isIdentifier {name : String} (h : isIdentifier name = true) (z : Int) :
    name.toList ≠ (toString z).toList := by
  obtain ⟨c, cs, hname, hdigit, hminus, -⟩ := exists_toList_of_isIdentifier h
  obtain ⟨d, ds, hz, hd, -⟩ := exists_toString_eq z
  rw [hname, hz]
  rintro heq
  -- they differ in the first character
  obtain rfl : c = d := (List.cons.inj heq).1
  cases hd with
  | inl hd => simp [hd] at hdigit
  | inr hd => exact hminus hd

namespace Kernel

variable {k : Kernel}

def leaves (k : Kernel) : Set Leaf := {x | ∀ v, x = .argument v → v ∈ k.params}

/-- Arguments under distinct identifiers are legible. -/
theorem legible (distinct : (k.params.map k.nameOf).Nodup)
    (identifiers : ∀ v ∈ k.params, isIdentifier (k.nameOf v) = true) :
    Legible k.nameOf k.leaves where
  ne_nil := by
    intro x hx
    cases x with
    | argument v =>
        obtain ⟨c, cs, h, -⟩ := exists_toList_of_isIdentifier (identifiers v (hx v rfl))
        rw [Leaf.chars, Token.chars, h]
        exact List.cons_ne_nil c cs
    | constant z =>
        obtain ⟨c, cs, h, -⟩ := exists_toString_eq z
        rw [Leaf.chars, Token.chars, h]
        exact List.cons_ne_nil c cs
  plain := by
    intro x hx
    cases x with
    | argument v =>
        obtain ⟨c, cs, h, -, -, hplain⟩ :=
          exists_toList_of_isIdentifier (identifiers v (hx v rfl))
        rwa [Leaf.chars, Token.chars, h]
    | constant z =>
        obtain ⟨c, cs, h, hc, hcs⟩ := exists_toString_eq z
        rw [Leaf.chars, Token.chars, h]
        rintro d (_ | ⟨_, hd⟩)
        · cases hc with
          | inl hc => exact isPlain_of_isDigit hc
          | inr hc => rw [hc]; rfl
        · exact isPlain_of_isDigit (hcs d hd)
  injective := by
    intro x hx y hy h
    cases x with
    | argument v =>
        cases y with
        | argument w =>
            -- distinct parameters have distinct names
            have hvw := List.inj_on_of_nodup_map distinct (hx v rfl) (hy w rfl)
              (String.toList_inj.mp h)
            rw [hvw]
        | constant z => exact absurd h (toString_ne_of_isIdentifier (identifiers v (hx v rfl)) z)
    | constant z =>
        cases y with
        | argument w =>
            exact absurd h.symm (toString_ne_of_isIdentifier (identifiers w (hy w rfl)) z)
        | constant z' =>
            -- numbers are told apart by how they are written
            have hzz : toString z = toString z' := String.toList_inj.mp h
            rw [Int.toString_eq_repr, Int.toString_eq_repr, Int.repr_inj] at hzz
            rw [hzz]

/-- An expression is made of leaves of its kernel. -/
theorem Expresses.mem_leaves (wf : k.WellFormed) {v : ValueId} {e : Formula}
    (h : k.Expresses v e) {x : Leaf} (hx : .leaf x ∈ e.tokens) : x ∈ k.leaves := by
  induction h with
  | @argument v y position bits known kind =>
      obtain rfl : x = .argument v := by simpa [Formula.tokens] using hx
      rintro w ⟨⟩
      exact wf.mem_params.mpr ⟨y, known, by simp [Value.isArgument, kind]⟩
  | @constant v y value known kind =>
      obtain rfl : x = .constant value := by simpa [Formula.tokens] using hx
      rintro w ⟨⟩
  | operation known opcode operands left right ihl ihr =>
      exact (Formula.leaf_mem_tokens_operation.mp hx).elim ihl ihr

end Kernel

end Datapath
