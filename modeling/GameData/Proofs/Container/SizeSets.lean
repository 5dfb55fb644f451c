import Mathlib
import GameData.Container.SizeSet

/-!
Tables of slots as sets.

The slots that are tried for a size follow each other in a linear sequence modulo the length of the table, a power of
two. Once the size is used up the sequence comes to every slot, so that a free slot is found as long as there is one. A
table is replaced before it is full. So a set has the sizes that were put into it and no others.
-/
namespace GameData.Container.SizeSet

section Sequence

/-- The slot that is tried after another one once the size is used up. -/
def nextSlot (length i : Nat) : Nat := (i * 5 + 1) % length

variable {k : Nat}

/-- From slot to slot, four times the slot and one is multiplied by five. -/
theorem cast_nextSlot (i : Nat) :
    ((4 * nextSlot (2 ^ k) i + 1 : Nat) : ZMod (2 ^ (k + 2))) = 5 * (4 * i + 1 : Nat) := by
  have split : 4 * nextSlot (2 ^ k) i + 1 + 2 ^ (k + 2) * ((i * 5 + 1) / 2 ^ k) = 5 * (4 * i + 1) := by
    have parts := Nat.mod_add_div (i * 5 + 1) (2 ^ k)
    rw [nextSlot, pow_add]
    linarith
  have cast := congrArg (Nat.cast : Nat → ZMod (2 ^ (k + 2))) split
  rwa [Nat.cast_add _ (2 ^ (k + 2) * _), Nat.cast_mul (2 ^ (k + 2)), ZMod.natCast_self, zero_mul, add_zero,
    Nat.cast_mul 5] at cast

theorem cast_iterate (i n : Nat) :
    ((4 * (nextSlot (2 ^ k))^[n] i + 1 : Nat) : ZMod (2 ^ (k + 2))) = 5 ^ n * (4 * i + 1 : Nat) := by
  induction n with
  | zero => rw [Function.iterate_zero_apply, pow_zero, one_mul]
  | succ n ih => rw [Function.iterate_succ_apply', cast_nextSlot, ih, ← mul_assoc, ← pow_succ']

/-- No slot is tried twice in as many rounds as there are slots. -/
theorem iterate_injOn (i : Nat) : Set.InjOn (fun n => (nextSlot (2 ^ k))^[n] i) (Finset.range (2 ^ k)) := by
  have coprime {n : Nat} (odd : n % 2 = 1) : n.Coprime (2 ^ (k + 2)) :=
    (Nat.coprime_two_right.mpr (Nat.odd_iff.mpr odd)).pow_right _
  let five : (ZMod (2 ^ (k + 2)))ˣ := ZMod.unitOfCoprime 5 (coprime rfl)
  let start : (ZMod (2 ^ (k + 2)))ˣ := ZMod.unitOfCoprime (4 * i + 1) (coprime (by omega))
  have order : orderOf five = 2 ^ k := by
    rw [← orderOf_units]
    exact ZMod.orderOf_five k
  intro a first b second same
  -- The start is odd, so it can be cancelled, and the powers of five up to its order differ.
  have powers : five ^ a = five ^ b := by
    refine mul_right_cancel (b := start) (Units.ext ?_)
    have cast := congrArg (fun x : Nat => ((4 * x + 1 : Nat) : ZMod (2 ^ (k + 2)))) same
    simp only [cast_iterate] at cast
    exact cast
  refine pow_injOn_Iio_orderOf ?_ ?_ powers
  · rw [order]
    exact Finset.mem_range.mp first
  · rw [order]
    exact Finset.mem_range.mp second

/-- The sequence comes to every slot. -/
theorem exists_iterate_eq {i j : Nat} (start : i < 2 ^ k) (slot : j < 2 ^ k) :
    ∃ n < 2 ^ k, (nextSlot (2 ^ k))^[n] i = j := by
  have inside : Set.MapsTo (fun n => (nextSlot (2 ^ k))^[n] i) (Finset.range (2 ^ k)) (Finset.range (2 ^ k)) := by
    intro n _
    rw [Finset.mem_coe, Finset.mem_range]
    cases n with
    | zero => exact start
    | succ n =>
        dsimp only
        rw [Function.iterate_succ_apply']
        exact Nat.mod_lt _ (Nat.two_pow_pos k)
  obtain ⟨n, mem, found⟩ := Finset.surjOn_of_injOn_of_card_le _ inside (iterate_injOn i) le_rfl
    (Finset.mem_coe.mpr (Finset.mem_range.mpr slot))
  exact ⟨n, Finset.mem_range.mp mem, found⟩

end Sequence

section Search

variable {slots : List (Option Nat)} {i n rest : Nat}

/-- The slot that a search has come to after some rounds. -/
def probe (length : Nat) : Nat → Nat → Nat → Nat
  | 0, i, _ => i
  | rounds + 1, i, rest => probe length rounds ((i * 5 + 1 + rest / 32) % length) (rest / 32)

theorem probe_lt {length : Nat} (inside : i < length) (rounds rest : Nat) : probe length rounds i rest < length := by
  induction rounds generalizing i rest with
  | zero => exact inside
  | succ rounds ih => exact ih (Nat.mod_lt _ (Nat.zero_lt_of_lt inside)) _

theorem probe_zero (length rounds i : Nat) : probe length rounds i 0 = (nextSlot length)^[rounds] i := by
  induction rounds generalizing i with
  | zero => rfl
  | succ rounds ih =>
      rw [probe, Nat.zero_div, Nat.add_zero, ih]
      rfl

/-- After as many rounds as the size has digits to the base 32, it is used up. -/
theorem probe_add (length : Nat) {digits : Nat} (small : rest < 32 ^ digits) (i rounds : Nat) :
    probe length (digits + rounds) i rest = (nextSlot length)^[rounds] (probe length digits i rest) := by
  induction digits generalizing i rest with
  | zero =>
      obtain rfl : rest = 0 := Nat.lt_one_iff.mp small
      rw [Nat.zero_add, probe_zero]
      rfl
  | succ digits ih =>
      rw [Nat.add_right_comm, probe, probe]
      exact ih (Nat.div_lt_of_lt_mul (by rwa [pow_succ'] at small)) _

theorem isFree_iff : isFree slots i = true ↔ slots[i]? = some none := beq_iff_eq

/-- A search that comes to a free slot finds one. -/
theorem isFree_freeSlot {rounds : Nat} (done : Nat) (enough : done < rounds)
    (free : isFree slots (probe slots.length done i rest) = true) :
    isFree slots (freeSlot slots rounds i rest) = true := by
  induction rounds generalizing done i rest with
  | zero => exact absurd enough (Nat.not_lt_zero _)
  | succ rounds ih =>
      rw [freeSlot]
      cases found : (neighbours slots.length i).find? (isFree slots) with
      | some j => exact List.find?_some found
      | none =>
          cases done with
          | zero =>
              have here : i ∈ neighbours slots.length i := by
                rw [neighbours]
                split <;> simp
              exact absurd free (List.find?_eq_none.mp found i here)
          | succ done => exact ih done (Nat.lt_of_succ_lt_succ enough) free

/-- A size that the rounds of a search use up. -/
def Searchable (n : Nat) : Prop := n < 32 ^ 64

theorem freeSlot_free {k : Nat} (length : slots.length = 2 ^ k) (free : none ∈ slots) (searchable : Searchable n) :
    slots[freeSlot slots (slots.length + 64) (n % slots.length) n]? = some none := by
  obtain ⟨j, slot, none⟩ := List.mem_iff_getElem.mp free
  have start : probe slots.length 64 (n % slots.length) n < slots.length :=
    probe_lt (Nat.mod_lt _ (Nat.zero_lt_of_lt slot)) ..
  rw [length] at slot start
  obtain ⟨rounds, enough, found⟩ := exists_iterate_eq start slot
  rw [← isFree_iff]
  refine isFree_freeSlot (64 + rounds) (by omega) ?_
  rw [probe_add _ searchable, length, found, isFree_iff, ← none]
  exact List.getElem?_eq_getElem _

end Search

section Tables

variable {slots : List (Option Nat)} {n : Nat}

theorem none_mem_of_length_lt (room : (slots.filterMap id).length < slots.length) : none ∈ slots := by
  by_contra full
  refine room.ne (List.filterMap_length_eq_length.mpr ?_)
  intro slot mem
  cases slot with
  | none => exact absurd mem full
  | some n => rfl

theorem length_place (slots : List (Option Nat)) (n : Nat) : (place slots n).length = slots.length := List.length_set

theorem set_perm {i : Nat} (free : slots[i]? = some none) (n : Nat) :
    ((slots.set i (some n)).filterMap id).Perm (n :: slots.filterMap id) := by
  obtain ⟨inside, empty⟩ := List.getElem?_eq_some_iff.mp free
  obtain ⟨front, back, split, -, filled⟩ : ∃ front back, slots = front ++ slots[i] :: back ∧ front.length = i ∧
      slots.set i (some n) = front ++ some n :: back := List.exists_of_set inside
  have before : slots.filterMap id = front.filterMap id ++ back.filterMap id := by
    refine (congrArg (List.filterMap id) split).trans ?_
    rw [empty, List.filterMap_append, List.filterMap_cons_none rfl]
  rw [filled, before, List.filterMap_append, List.filterMap_cons_some (f := id) (b := n) rfl]
  exact List.perm_middle

/-- A size is put beside those that are there. -/
theorem place_perm {k : Nat} (length : slots.length = 2 ^ k) (room : (slots.filterMap id).length < slots.length)
    (searchable : Searchable n) : ((place slots n).filterMap id).Perm (n :: slots.filterMap id) :=
  set_perm (freeSlot_free length (none_mem_of_length_lt room) searchable) n

/-- So are several sizes, if there are slots for all of them. -/
theorem foldl_place_perm {k : Nat} {ns : List Nat} (length : slots.length = 2 ^ k)
    (room : (slots.filterMap id).length + ns.length ≤ slots.length) (searchable : ∀ n ∈ ns, Searchable n) :
    (ns.foldl place slots).length = slots.length ∧
      ((ns.foldl place slots).filterMap id).Perm (ns ++ slots.filterMap id) := by
  induction ns generalizing slots with
  | nil => exact ⟨rfl, .refl _⟩
  | cons n ns ih =>
      obtain ⟨first, others⟩ := List.forall_mem_cons.mp searchable
      rw [List.length_cons] at room
      have placed := place_perm length (by omega) first
      have room' : ((place slots n).filterMap id).length + ns.length ≤ (place slots n).length := by
        rw [placed.length_eq, length_place, List.length_cons]
        omega
      obtain ⟨kept, perm⟩ := ih ((length_place slots n).trans length) room' others
      refine ⟨kept.trans (length_place slots n), ?_⟩
      rw [List.foldl_cons]
      refine perm.trans ((placed.append_left ns).trans ?_)
      exact List.perm_middle

/-- A table that starts empty and is long enough takes all of them. -/
theorem foldl_place_replicate {k size : Nat} {ns : List Nat} (length : size = 2 ^ k) (room : ns.length ≤ size)
    (searchable : ∀ n ∈ ns, Searchable n) : (ns.foldl place (List.replicate size none)).length = size ∧
      ((ns.foldl place (List.replicate size none)).filterMap id).Perm ns := by
  have blank : (List.replicate size (none : Option Nat)).filterMap id = [] := by simp
  have fits : ((List.replicate size (none : Option Nat)).filterMap id).length + ns.length ≤
      (List.replicate size (none : Option Nat)).length := by
    rw [blank, List.length_replicate, List.length_nil, Nat.zero_add]
    exact room
  obtain ⟨kept, perm⟩ := foldl_place_perm (List.length_replicate.trans length) fits searchable
  rw [blank, List.append_nil] at perm
  exact ⟨kept.trans List.length_replicate, perm⟩

end Tables

section Sets

theorem lengthFor_eq (n : Nat) : ∃ k, lengthFor n = 2 ^ k := by
  rcases max_choice 8 (2 ^ (n.log2 + 1)) with small | large
  · exact ⟨3, small⟩
  · exact ⟨_, large⟩

theorem lt_lengthFor (n : Nat) : n < lengthFor n := lt_max_of_lt_right Nat.lt_log2_self

theorem two_mul_le_spread (used : Nat) : used * 2 ≤ spread used := by
  unfold spread
  split <;> omega

/-- A set whose table has room, and whose sizes can be searched for. -/
structure Proper (s : SizeSet) : Prop where
  length : ∃ k, s.slots.length = 2 ^ k
  room : s.toList.length * 5 < (s.slots.length - 1) * 3
  searchable : ∀ n ∈ s.toList, Searchable n

theorem proper_empty : Proper {} := ⟨⟨3, rfl⟩, by decide, fun _ mem => absurd mem List.not_mem_nil⟩

variable {s : SizeSet} {n : Nat}

theorem contains_iff : s.slots.contains (some n) = true ↔ n ∈ s.toList := by
  simp [toList]

/-- Putting a new size into a set adds it to the list of its sizes. -/
theorem Proper.insert_perm (proper : s.Proper) (searchable : Searchable n) (new : n ∉ s.toList) :
    (s.insert n).Proper ∧ (s.insert n).toList.Perm (n :: s.toList) := by
  obtain ⟨⟨k, length⟩, room, known⟩ := proper
  have placed := place_perm length (show s.toList.length < _ by omega) searchable
  have used := placed.length_eq
  have each : ∀ m ∈ n :: s.toList, Searchable m := List.forall_mem_cons.mpr ⟨searchable, known⟩
  rw [insert, if_neg (mt contains_iff.mp new)]
  dsimp only
  split
  case isTrue roomy =>
    refine ⟨⟨⟨k, (length_place ..).trans length⟩, roomy, ?_⟩, placed⟩
    intro m mem
    exact each m (placed.mem_iff.mp mem)
  case isFalse =>
    obtain ⟨k', length'⟩ := lengthFor_eq (spread ((place s.slots n).filterMap id).length)
    have long := Nat.lt_of_le_of_lt (two_mul_le_spread _) (lt_lengthFor (spread ((place s.slots n).filterMap id).length))
    generalize lengthFor (spread ((place s.slots n).filterMap id).length) = size at length' long
    obtain ⟨kept, perm⟩ := foldl_place_replicate length' (by omega) fun m mem => each m (placed.mem_iff.mp mem)
    refine ⟨⟨⟨k', kept.trans length'⟩, ?_, ?_⟩, perm.trans placed⟩
    · rw [toList, kept, perm.length_eq]
      rw [List.length_cons] at used
      omega
    · intro m mem
      exact each m (placed.mem_iff.mp (perm.mem_iff.mp mem))

theorem Proper.insert (proper : s.Proper) (searchable : Searchable n) :
    (s.insert n).Proper ∧ ∀ m, m ∈ (s.insert n).toList ↔ m = n ∨ m ∈ s.toList := by
  by_cases there : n ∈ s.toList
  · rw [SizeSet.insert, if_pos (contains_iff.mpr there)]
    refine ⟨proper, fun m => ⟨.inr, ?_⟩⟩
    rintro (rfl | mem)
    · exact there
    · exact mem
  · obtain ⟨proper', perm⟩ := proper.insert_perm searchable there
    exact ⟨proper', fun m => perm.mem_iff.trans List.mem_cons⟩

end Sets

end GameData.Container.SizeSet
