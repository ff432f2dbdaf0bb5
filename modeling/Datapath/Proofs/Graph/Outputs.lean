import Datapath.Proofs.Address.Origins
import Datapath.Proofs.Graph.Direction

/-!
# Parameters that nothing is written through

Whether a pointer parameter counts as written through is found out by walking forward from it. Which
parameters the address of a store comes from is found out by stepping down from the address. If the
two agreed then a parameter that no store's address comes from would be an input, but steps down
pass over some operands that the walk comes from: all those of an instruction that no step leaves,
and the ones beside the operand that a cast is looked through to (`PassesOver`). A way forward over
such an operand is a detour (`Detours`), unless it ends at a load, where the walk stops.

A way without detours is stepped down again (`stepsTo_or_detours`), and a detour to the address of a
store is a way to that store (`accessedThrough_of_storedTo`). So a parameter that no store's address
comes from is an input exactly if detours from it lead to no store and it enters stores at their
addresses only (`inParam_iff_of_not_mem_bases`). There are parameters where this fails, as
`not_inParam_publish` shows.
-/

namespace Datapath.Kernel

open Relation (ReflTransGen)

variable {k : Kernel} {p a u v o : ValueId}

/-! ## Detours -/

def StoredTo (k : Kernel) (a : ValueId) : Prop :=
  ∃ s i, k.instruction? s = some i ∧ i.opcode = .store ∧ i.address? = some a

/-- Stepping down from `a`, the operand `u` of `w` is passed over. -/
inductive PassesOver (k : Kernel) (a w u : ValueId) : Prop
  | stop {i : Instruction} (reached : ReflTransGen k.StepsTo a w)
      (known : k.instruction? w = some i) (address : i.opcode ≠ .getElementPtr)
      (load : i.opcode ≠ .load) (arithmetic : i.opcode.isArithmetic = false)
      (operand : u ∈ i.operands) : PassesOver k a w u
  | beside {v o : ValueId} {i j : Instruction} (reached : ReflTransGen k.StepsTo a v)
      (user : k.instruction? v = some j) (used : w ∈ j.operands) (through : k.StandsFor w o)
      (known : k.instruction? w = some i) (operand : u ∈ i.operands) (other : u ≠ o) :
      PassesOver k a w u

/-- A way forward from `p` to `a`, from where the walk goes on, leads over an operand that is passed
over on the way down. -/
def Detours (k : Kernel) (p a : ValueId) : Prop :=
  k.opcode? a ≠ some .load ∧ ∃ w u, k.PassesOver a w u ∧ ReflTransGen k.Follows p u ∧
    k.Follows u w ∧ ReflTransGen k.Follows w a

/-- The walk goes from a value to one of its users. -/
theorem Follows.user (h : k.Follows v u) : u ∈ k.usersOf v := by
  cases h with
  | address _ user _ => exact user
  | data _ _ _ user => exact user

/-- The walk goes on from no load. -/
theorem Follows.not_load (h : k.Follows v u) : k.opcode? v ≠ some .load := by
  cases h with
  | address opcode => simp [opcode]
  | data _ load => exact load

/-- A step leads down to each operand of an address computation or of arithmetic, or to what the
operand is looked through to. -/
theorem stepsTo_of_operand {i : Instruction} (hi : k.instruction? v = some i)
    (passes : i.opcode = .getElementPtr ∨ i.opcode.isArithmetic = true) (hu : u ∈ i.operands) :
    k.StepsTo v u ∨ ∃ o, k.StandsFor u o ∧ k.StepsTo v o := by
  have seen (step : ∀ o, k.SeenAs u o → k.StepsTo v o) :
      k.StepsTo v u ∨ ∃ o, k.StandsFor u o ∧ k.StepsTo v o := by
    by_cases cast : ∃ o, k.StandsFor u o
    · obtain ⟨o, ho⟩ := cast
      exact .inr ⟨o, ho, step o (.through ho)⟩
    · exact .inl (step u (.plain fun o ho => cast ⟨o, ho⟩))
  rcases passes with address | arithmetic
  · obtain ⟨n, hn⟩ := List.mem_iff_getElem?.mp hu
    cases n with
    | zero => exact .inl (.base hi address hn)
    | succ n => exact seen fun o ho => .index hi address hn ho
  · exact seen fun o ho => .operand hi arithmetic hu ho

/-- **A way forward is stepped down again, or it is a detour.** Here `v` is a value on the way from
`p` to `a` down to which steps were found. -/
theorem stepsTo_or_detours (h : k.Consistent) (hp : k.instruction? p = none)
    (goesOn : k.opcode? a ≠ some .load) {v : ValueId} (reached : ReflTransGen k.StepsTo a v)
    (up : ReflTransGen k.Follows v a) (load : k.opcode? v ≠ some .load)
    (way : ReflTransGen k.Follows p v) :
    ReflTransGen k.StepsTo a p ∨ k.Detours p a := by
  rcases way.cases_tail with rfl | ⟨u, way, next⟩
  · exact .inl reached
  obtain ⟨i, hi, hu⟩ := h.mem_usersOf.mp next.user
  have hlt := (h.user_lt next.user).1
  by_cases passes : i.opcode = .getElementPtr ∨ i.opcode.isArithmetic = true
  · rcases stepsTo_of_operand hi passes hu with step | ⟨o, through, step⟩
    · exact stepsTo_or_detours h hp goesOn (reached.tail step) (up.head next) next.not_load way
    · -- `u` is a cast of `o`, so the way comes to it from one of its operands
      have ⟨j, hj, _⟩ := through
      rcases way.cases_tail with rfl | ⟨w, way, before⟩
      · cases hp.symm.trans hj
      obtain ⟨j', hj', hw⟩ := h.mem_usersOf.mp before.user
      by_cases same : w = o
      · subst same
        have hlt' := (h.user_lt before.user).1
        exact stepsTo_or_detours h hp goesOn (reached.tail step) ((up.head next).head before)
          before.not_load way
      · have passed : k.PassesOver a u w := .beside reached hi hu through hj' hw same
        exact .inr ⟨goesOn, u, w, passed, way, before, up.head next⟩
  · -- no step leaves `v`, so its operand `u` is passed over
    obtain ⟨address, arithmetic⟩ := not_or.mp passes
    have hload : i.opcode ≠ .load := by simpa [opcode?, hi] using load
    have passed : k.PassesOver a v u :=
      .stop reached hi address hload (Bool.eq_false_iff.mpr arithmetic) hu
    exact .inr ⟨goesOn, v, u, passed, way, next, up⟩
termination_by v.index

/-! ## Writing -/

/-- A way forward from a parameter that leads to a write leads to the address that is written to, if
stores are entered at their addresses. -/
theorem exists_storedTo_of_accessedThrough (hp : k.instruction? p = none)
    (addressed : ∀ u s, ReflTransGen k.Follows p u → k.Follows u s → k.opcode? s = some .store →
      k.Accesses .store s u) (through : k.AccessedThrough .store p) :
    ∃ a, k.StoredTo a ∧ ReflTransGen k.Follows p a ∧ k.opcode? a ≠ some .load := by
  obtain ⟨w, way, hstore | ⟨hgep, s, hs, i, hi, hop, haddress⟩⟩ := through
  · -- a store that the walk comes to: it comes from the address
    rcases way.cases_tail with rfl | ⟨a, way, next⟩
    · simp [opcode?, hp] at hstore
    · obtain ⟨i, hi, hop, haddress⟩ := addressed a w way next hstore
      exact ⟨a, ⟨w, i, hi, hop, haddress rfl⟩, way, next.not_load⟩
  · -- a computed address that is stored to
    exact ⟨w, ⟨s, i, hi, hop, haddress rfl⟩, way, by simp [hgep]⟩

/-- Whoever comes to the address of a store comes to a store, except at a load, where the walk
stops. -/
theorem accessedThrough_of_storedTo (h : k.Consistent) (stored : k.StoredTo a)
    (goesOn : k.opcode? a ≠ some .load) (way : ReflTransGen k.Follows p a) :
    k.AccessedThrough .store p := by
  obtain ⟨s, i, hi, hop, ha⟩ := stored
  have user : s ∈ k.usersOf a :=
    h.mem_usersOf.mpr ⟨i, hi, Instruction.mem_operands_of_address? ha⟩
  by_cases address : k.opcode? a = some .getElementPtr
  · exact ⟨a, way, .inr ⟨address, s, user, i, hi, hop, fun _ => ha⟩⟩
  · by_cases store : k.opcode? a = some .store
    · exact ⟨a, way, .inl store⟩
    · have hs : k.opcode? s = some .store := by rw [opcode?, hi, Option.map_some, hop]
      exact ⟨s, way.tail (.data address goesOn store user), .inl hs⟩

/-- A pointer parameter is an input if and only if no way leads from it to a store. -/
theorem ofValue_eq_inParam_iff (h : k.Consistent) {x : Value} (hp : k.value? p = some x)
    (argument : x.isArgument = true) (pointer : x.type.isPointer = true) :
    NodeKind.ofValue k p = .ok .inParam ↔ ¬ k.AccessedThrough .store p := by
  obtain ⟨access, haccess, -, writes⟩ := exists_access h (value?_lt hp)
  rw [ofValue_of_pointer hp argument pointer haccess, ← writes]
  cases hwrites : access.writes <;> cases hreads : access.reads <;>
    simp [NodeKind.ofAccess, hwrites, hreads]

/-- **When a parameter that no store's address comes from is an input**: if and only if no detour
leads from it to the address of a store and it enters stores at their addresses only. -/
theorem inParam_iff_of_not_mem_bases {name : String} {script : List Step} {k : Kernel}
    (built : Kernel.ofScript? name script = some k) {p : ValueId} {x : Value}
    (hp : k.value? p = some x) (argument : x.isArgument = true) (pointer : x.type.isPointer = true)
    (absent : ∀ a, k.StoredTo a → ∃ l, k.bases a = .ok l ∧ p ∉ l) :
    NodeKind.ofValue k p = .ok .inParam ↔
      (∀ a, k.StoredTo a → ¬ k.Detours p a) ∧
      ∀ u s, ReflTransGen k.Follows p u → k.Follows u s → k.opcode? s = some .store →
        k.Accesses .store s u := by
  have h := ofScript?_consistent built
  have base : x.isBase = true := by simp [Value.isBase, argument]
  have hnone := instruction?_of_isBase hp base
  rw [ofValue_eq_inParam_iff h hp argument pointer]
  constructor
  · intro unwritten
    refine ⟨fun a stored detours => ?_, fun u s way next store => ?_⟩
    · obtain ⟨goesOn, w, u, -, way, next, up⟩ := detours
      exact unwritten (accessedThrough_of_storedTo h stored goesOn ((way.tail next).trans up))
    · exact absurd ⟨s, way.tail next, .inl store⟩ unwritten
  · rintro ⟨straight, addressed⟩ through
    -- a way to a store comes by its address, and without a detour the parameter is one of the bases
    obtain ⟨a, stored, way, goesOn⟩ := exists_storedTo_of_accessedThrough hnone addressed through
    obtain ⟨l, hl, hnot⟩ := absent a stored
    rcases stepsTo_or_detours h hnone goesOn .refl .refl goesOn way with down | detours
    · exact hnot ((mem_bases hl p).mpr (rootedIn_iff.mpr ⟨down, x, hp, base⟩))
    · exact straight a stored detours

/-- A byte is stored in two places: in an element of `q`, and where a pointer leads that is loaded
from the low bits of `p`. -/
def moveScript : List Step :=
  [.param "p" (.pointer (.int 8)), .param "q" (.pointer (.int 8)), .param "x" (.int 8),
    .block "entry", .moveTo ⟨0⟩, .elementPointer ⟨1⟩ [⟨2⟩] "element", .store ⟨2⟩ ⟨3⟩,
    .cast .zext ⟨0⟩ 64 "bits", .cast .trunc ⟨5⟩ 32 "low",
    .instruction .load [⟨6⟩] (.pointer (.int 8)) "slot", .store ⟨2⟩ ⟨7⟩, .ret none]

def move : Kernel := (Kernel.ofScript? "move" moveScript).getD (.empty "move")

/-- What holds of the address of each store can be checked value by value. -/
theorem forall_storedTo_iff {P : ValueId → Prop} : (∀ a, k.StoredTo a → P a) ↔
    ∀ s ∈ k.ids, ∀ i ∈ k.instruction? s, i.opcode = .store → ∀ a ∈ i.address?, P a := by
  rw [← forall_instruction_iff]
  constructor
  · exact fun h s i hi hop a ha => h a ⟨s, i, hi, hop, ha⟩
  · rintro h a ⟨s, i, hi, hop, ha⟩
    exact h s i hi hop a ha

/-- No address that is stored to comes from `p`. On the way to `slot` a cast of `p` is passed over,
but the walk stops there. -/
theorem inParam_iff_of_not_mem_bases_move : Kernel.ofScript? "move" moveScript = some move ∧
    move.StoredTo ⟨3⟩ ∧ move.bases ⟨3⟩ = .ok [⟨1⟩, ⟨2⟩] ∧
    move.StoredTo ⟨7⟩ ∧ move.bases ⟨7⟩ = .ok [] ∧
    NodeKind.ofValue move ⟨0⟩ = .ok .inParam := by
  have built : Kernel.ofScript? "move" moveScript = some move := rfl
  have helement : move.instruction? ⟨4⟩ = some ⟨.store, [⟨2⟩, ⟨3⟩], none, []⟩ := by
    decide +kernel
  have hslot : move.instruction? ⟨8⟩ = some ⟨.store, [⟨2⟩, ⟨7⟩], none, []⟩ := by decide +kernel
  have element : move.bases ⟨3⟩ = .ok [⟨1⟩, ⟨2⟩] := by
    rw [← Outcome.toOption_eq_some]
    decide +kernel
  have slot : move.bases ⟨7⟩ = .ok [] := by
    rw [← Outcome.toOption_eq_some]
    decide +kernel
  have only (a : ValueId) (ha : move.StoredTo a) : a = ⟨3⟩ ∨ a = ⟨7⟩ := by
    revert a
    rw [forall_storedTo_iff]
    decide +kernel
  -- the walk comes to the casts and to the load of `slot`
  let met : List ValueId := [⟨0⟩, ⟨5⟩, ⟨6⟩, ⟨7⟩]
  have ends {u w : ValueId} (hu : u ∈ met) (next : move.Follows u w) : w ∈ met := by
    have used : ∀ u ∈ met, ∀ w ∈ move.usersOf u, w ∈ met ∨ move.opcode? u = some .load := by
      decide +kernel
    rcases used u hu w next.user with hw | load
    · exact hw
    · exact absurd load next.not_load
  have reached {w : ValueId} (way : ReflTransGen move.Follows ⟨0⟩ w) : w ∈ met := by
    induction way with
    | refl => decide
    | tail _ next ih => exact ends ih next
  refine ⟨built, ⟨⟨4⟩, _, helement, rfl, rfl⟩, element, ⟨⟨8⟩, _, hslot, rfl, rfl⟩, slot, ?_⟩
  refine (inParam_iff_of_not_mem_bases built (p := ⟨0⟩) rfl rfl rfl fun a ha => ?_).mpr
    ⟨fun a ha => ?_, fun u s way next hop => ?_⟩
  · rcases only a ha with rfl | rfl
    · exact ⟨_, element, by decide⟩
    · exact ⟨_, slot, by decide⟩
  · rintro ⟨goesOn, w, u, -, way, next, up⟩
    rcases only a ha with rfl | rfl
    · exact absurd (reached ((way.tail next).trans up)) (by decide)
    · exact goesOn rfl
  · have hnot : ∀ w ∈ met, move.opcode? w ≠ some .store := by decide +kernel
    exact absurd hop (hnot s (reached (way.tail next)))

/-! ## Parameters that count as outputs -/

/-- A pointer is stored, and a byte goes into an element that another pointer picks by its low
byte. -/
def publishScript : List Step :=
  [.param "p" (.pointer (.int 8)), .param "slot" (.pointer (.pointer (.int 8))),
    .param "key" (.pointer (.int 8)), .param "table" (.pointer (.int 8)), .param "x" (.int 8),
    .block "entry", .moveTo ⟨0⟩, .store ⟨0⟩ ⟨1⟩, .cast .zext ⟨2⟩ 16 "wide",
    .cast .trunc ⟨6⟩ 8 "low", .elementPointer ⟨3⟩ [⟨7⟩] "element", .store ⟨4⟩ ⟨8⟩, .ret none]

def publish : Kernel := (Kernel.ofScript? "publish" publishScript).getD (.empty "publish")

/-- Neither `p` nor `key` is among the bases of an address that is stored to, and both count as
outputs: `p` is what is stored, and `key` leads to an index that is a cast of a cast. -/
theorem not_inParam_publish : Kernel.ofScript? "publish" publishScript = some publish ∧
    ∀ p ∈ [(⟨0⟩ : ValueId), ⟨2⟩],
      (∃ x, publish.value? p = some x ∧ x.isArgument = true ∧ x.type.isPointer = true) ∧
      (∀ a, publish.StoredTo a → ∃ l, publish.bases a = .ok l ∧ p ∉ l) ∧
      NodeKind.ofValue publish p = .ok .outParam := by
  have slot : publish.bases ⟨1⟩ = .ok [⟨1⟩] := by
    rw [← Outcome.toOption_eq_some]
    decide +kernel
  have element : publish.bases ⟨8⟩ = .ok [⟨3⟩] := by
    rw [← Outcome.toOption_eq_some]
    decide +kernel
  have only (a : ValueId) (ha : publish.StoredTo a) : a = ⟨1⟩ ∨ a = ⟨8⟩ := by
    revert a
    rw [forall_storedTo_iff]
    decide +kernel
  have absent (p : ValueId) (hp : p ∉ [(⟨1⟩ : ValueId), ⟨3⟩]) (a : ValueId)
      (ha : publish.StoredTo a) : ∃ l, publish.bases a = .ok l ∧ p ∉ l := by
    rcases only a ha with rfl | rfl
    · exact ⟨_, slot, by grind⟩
    · exact ⟨_, element, by grind⟩
  refine ⟨rfl, List.forall_mem_cons.mpr ⟨⟨⟨_, rfl, rfl, rfl⟩, absent _ (by decide), ?_⟩,
    List.forall_mem_singleton.mpr ⟨⟨_, rfl, rfl, rfl⟩, absent _ (by decide), ?_⟩⟩⟩
  · rw [← Outcome.toOption_eq_some]
    decide +kernel
  · rw [← Outcome.toOption_eq_some]
    decide +kernel

end Datapath.Kernel
