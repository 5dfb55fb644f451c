import GameData.Proofs.Container.Steps

/-!
Walks along a chain of heads.

In a container that never takes a filler the next head is read right behind the one before it. A chunk that keeps its
distance from the container (`Walk.Level`), whatever was done with it, is left by that distance alone. So a walk follows
a chain of heads that the file fixes (`Frame.Chain`).
-/
namespace GameData.Container

open Filling

namespace Walk

/-- The chunk whose data start at `start` of the container, and both have come equally far, wherever the file is. -/
def Level (c : Window) (s : Stream) (h : Head) (start : Int) : Window × Outer → Prop :=
  Window.Level h start (fun o => c.Moved o.1 ∧ s.Moved o.2) fun o => o.1.position

theorem Entered.level {c : Window} {s : Stream} {h : Head} {q : Int} {p : Nat} {w : Walk}
    (entered : Entered c s h q p w) : Upon (Level c s h q) w :=
  ⟨entered.phase, _, entered.current, 0, rfl, entered.moved, by rw [entered.outer, Int.add_zero]; rfl⟩

theorem steady_level {c : Window} {s : Stream} (isOpen : c.closed = false) (even : c.head.size % 2 = 0) (h : Head)
    (start : Int) : Steady s (Level c s h start) where
  chunk := Window.keeps_level (Window.exact Stream.keeps isOpen even) h start
  file := by
    rintro k o ⟨p, same, ⟨container, file⟩, level⟩
    exact ⟨file, fun t moved => ⟨p, same, ⟨container, moved⟩, level⟩⟩

section Level

variable {c : Window} {s : Stream} {h : Head} {start : Int} {w : Walk}

/-- Whatever was done with a chunk, what it has still to go leads from where the container stands to the place that its
head and its start tell. -/
theorem Upon.distance (level : Upon (Level c s h start) w) : ∃ k q p, w.current = some k ∧ k.closed = false ∧
    k.offset ≠ none ∧ w.outer = mount c s q p ∧ q + (k.head.next - k.position) = start + h.next := by
  obtain ⟨-, _, current, r, rfl, ⟨⟨q, container⟩, ⟨p, file⟩⟩, far⟩ := level
  have outer : w.outer = mount c s q p := Prod.ext container file
  rw [outer] at far
  have far : q = start + r := far
  refine ⟨_, q, p, current, rfl, Option.some_ne_none _, outer, ?_⟩
  dsimp only
  omega

variable (mounted : Mounted c s) (level : Upon (Level c s h start) w) {base : Int} (placed : c.offset = some base)
include mounted level placed

theorem leave_level (low : 0 ≤ start + h.next) (high : start + h.next ≤ c.head.size) :
    ∃ v, leave.fill w = (.ok true, v) ∧ Ready c s (start + h.next) (base + (start + h.next)).toNat v := by
  obtain ⟨k, q, p, current, isOpen, known, outer, aim⟩ := level.distance
  exact leave_inside mounted level.phase current isOpen known outer placed aim low high

theorem leave_level_outside (outside : start + h.next < 0 ∨ c.head.size < start + h.next) :
    ∃ u, leave.fill w = (.error .outsideChunk, u) := by
  obtain ⟨k, q, p, current, isOpen, known, outer, aim⟩ := level.distance
  exact leave_outside mounted level.phase current isOpen known outer placed aim outside

end Level

end Walk

/-- A container at a known place of its file, in which no read takes a filler: its size is even, or the file ends
before it does. -/
structure Frame where
  container : Window
  file : Stream
  base : Nat
  mounted : Mounted container file
  placed : container.offset = some (base : Int)
  plain : container.head.size % 2 = 0 ∨ file.data.length < base + container.head.size

namespace Frame

variable (F : Frame)

/-- There is a whole head at a position of the container. -/
def Holds (q : Nat) : Prop := q + 16 ≤ F.container.head.size ∧ F.base + q + 16 ≤ F.file.data.length

def headFrom (q : Nat) : Head := headAt F.file.data (F.base + q)

/-- The heads from a position of the container on, each at the distance that the one before it tells, and how a walk
over them ends: where there is no whole head any more, or after a head that leads out of the container. -/
inductive Chain : Nat → List Head → Except Fault Unit → Prop
  | stop {q : Nat} (short : ¬ F.Holds q) : Chain q [] (.ok ())
  | stray {q : Nat} (holds : F.Holds q) (outside : F.container.head.size < (F.headFrom q).after q) :
      Chain q [F.headFrom q] (.error .outsideChunk)
  | more {q : Nat} {hs : List Head} {r : Except Fault Unit} (holds : F.Holds q)
      (inside : (F.headFrom q).after q ≤ F.container.head.size) (rest : Chain ((F.headFrom q).after q) hs r) :
      Chain q (F.headFrom q :: hs) r

theorem Chain.outcome {F : Frame} {q : Nat} {hs : List Head} {r : Except Fault Unit} (chain : F.Chain q hs r) :
    r = .ok () ∨ r = .error .outsideChunk := by
  induction chain with
  | stop => exact .inl rfl
  | stray => exact .inr rfl
  | more _ _ _ ih => exact ih

/-- Each head starts after the one before it and inside the file. -/
theorem Chain.length_le {F : Frame} {q : Nat} {hs : List Head} {r : Except Fault Unit} (chain : F.Chain q hs r) :
    hs.length ≤ F.file.data.length - q := by
  induction chain with
  | stop => exact Nat.zero_le _
  | stray holds =>
      have := holds.2
      rw [List.length_singleton]
      omega
  | @more q hs r holds inside rest ih =>
      have := holds.2
      have later := (F.headFrom q).lt_after q
      rw [List.length_cons]
      omega

theorem exists_chain (q : Nat) : ∃ hs r, F.Chain q hs r := by
  by_cases holds : F.Holds q
  · have later := (F.headFrom q).lt_after q
    have file := holds.2
    by_cases inside : (F.headFrom q).after q ≤ F.container.head.size
    · obtain ⟨hs, r, chain⟩ := exists_chain ((F.headFrom q).after q)
      exact ⟨_, r, .more holds inside chain⟩
    · exact ⟨_, _, .stray holds (Nat.not_le.mp inside)⟩
  · exact ⟨[], .ok (), .stop holds⟩
termination_by F.file.data.length - q
decreasing_by omega

/-- The next chunk that the walk opens, if there is one, is at a position of the container. -/
def Ahead (w : Walk) (q : Nat) : Prop :=
  ∃ v, Walk.leave.fill w = (.ok true, v) ∧ Walk.Ready F.container F.file q (F.base + q) v

def On (w : Walk) (q : Nat) : Prop := Walk.Upon (Walk.Level F.container F.file (F.headFrom q) (q + 16 : Nat)) w

variable {F}

theorem Ahead.advance_stop {w : Walk} {q : Nat} (ahead : F.Ahead w q) (short : ¬ F.Holds q) :
    ∃ v, Walk.advance.fill w = (.ok none, v) := by
  obtain ⟨v, left, ready⟩ := ahead
  obtain ⟨u, opened⟩ := ready.openNext_of_short F.mounted (by unfold Holds at short; omega)
  exact ⟨u, (Walk.advance_of_leave left).trans opened⟩

theorem Ahead.advance {w : Walk} {q : Nat} (ahead : F.Ahead w q) (holds : F.Holds q) :
    ∃ v, Walk.advance.fill w = (.ok (some (F.headFrom q)), v) ∧
      Walk.Entered F.container F.file (F.headFrom q) (q + 16 : Nat) (F.base + q + 16) v := by
  obtain ⟨v, left, ready⟩ := ahead
  obtain ⟨whole, inside⟩ := holds
  obtain ⟨k, u, -, farther, opened, entered⟩ :=
    ready.openNext_of_whole F.mounted (Int.ofNat_le.mpr whole) inside
  -- A filler would lie behind the end of the file.
  have exactly : k = 16 := by
    have plain := F.plain
    omega
  subst exactly
  exact ⟨u, (Walk.advance_of_leave left).trans opened, entered⟩

theorem On.ahead {w : Walk} {q : Nat} (on : F.On w q) (inside : (F.headFrom q).after q ≤ F.container.head.size) :
    F.Ahead w ((F.headFrom q).after q) := by
  have lands := (F.headFrom q).after_eq_next q
  obtain ⟨v, left, ready⟩ := Walk.leave_level F.mounted on F.placed (by omega) (by omega)
  have there : ((q + 16 : Nat) : Int) + (F.headFrom q).next = ((F.headFrom q).after q : Nat) := by omega
  rw [there, ← Int.natCast_add, Int.toNat_natCast] at ready
  exact ⟨v, left, ready⟩

theorem On.advance_outside {w : Walk} {q : Nat} (on : F.On w q)
    (outside : F.container.head.size < (F.headFrom q).after q) :
    ∃ v, Walk.advance.fill w = (.error .outsideChunk, v) := by
  have lands := (F.headFrom q).after_eq_next q
  obtain ⟨u, failed⟩ := Walk.leave_level_outside F.mounted on F.placed (.inr (by omega))
  exact ⟨u, Walk.advance_of_leave_error failed⟩

/-- An action that keeps the walk on its chunk and remembers the head. -/
def Notes {ρ : Type} (F : Frame) (seen : ρ → List Head) (action : Head → Filling (ρ × Walk) Unit) : Prop :=
  ∀ q notes w, F.On w q → ∃ notes' w', (action (F.headFrom q)).fill (notes, w) = (.ok (), (notes', w')) ∧
    seen notes' = seen notes ++ [F.headFrom q] ∧ F.On w' q

/-- Such actions see the heads of the chain, and the walk ends as the chain does. -/
theorem Chain.forEachFrom {ρ : Type} {seen : ρ → List Head} {action : Head → Filling (ρ × Walk) Unit}
    (noting : F.Notes seen action) {q : Nat} {hs : List Head} {r : Except Fault Unit} (chain : F.Chain q hs r)
    {w : Walk} (ahead : F.Ahead w q) {fuel : Nat} (enough : hs.length < fuel) (notes : ρ) :
    ∃ notes' v, (Walk.forEachFrom action fuel).fill (notes, w) = (r, (notes', v)) ∧ seen notes' = seen notes ++ hs := by
  induction chain generalizing w fuel notes with
  | stop short =>
      obtain ⟨fuel, rfl⟩ : ∃ n, fuel = n + 1 := ⟨fuel - 1, by omega⟩
      obtain ⟨v, step⟩ := ahead.advance_stop short
      refine ⟨notes, v, ?_, (List.append_nil _).symm⟩
      rw [Walk.forEachFrom, fill_bind_of_ok (onSecond_fill step)]
      rfl
  | @stray q holds outside =>
      obtain ⟨fuel, rfl⟩ : ∃ n, fuel = n + 2 := ⟨fuel - 2, by rw [List.length_singleton] at enough; omega⟩
      obtain ⟨v, step, entered⟩ := ahead.advance holds
      obtain ⟨notes', v', acted, noted, on⟩ := noting q notes v entered.level
      obtain ⟨u, failed⟩ := on.advance_outside outside
      refine ⟨notes', u, ?_, noted⟩
      rw [Walk.forEachFrom, fill_bind_of_ok (onSecond_fill step), fill_bind_of_ok acted, Walk.forEachFrom,
        fill_bind_of_error (onSecond_fill failed)]
  | @more q hs r holds inside rest ih =>
      obtain ⟨fuel, rfl⟩ : ∃ n, fuel = n + 1 := ⟨fuel - 1, by omega⟩
      obtain ⟨v, step, entered⟩ := ahead.advance holds
      obtain ⟨notes', v', acted, noted, on⟩ := noting q notes v entered.level
      obtain ⟨last, u, run, seen'⟩ := ih (on.ahead inside) (Nat.lt_of_succ_lt_succ enough) notes'
      refine ⟨last, u, ?_, ?_⟩
      · rw [Walk.forEachFrom, fill_bind_of_ok (onSecond_fill step), fill_bind_of_ok acted, run]
      · rw [seen', noted, List.append_assoc, List.singleton_append]

/-- The bound of the loop is never reached. -/
theorem Chain.forEach {ρ : Type} {seen : ρ → List Head} {action : Head → Filling (ρ × Walk) Unit}
    (noting : F.Notes seen action) {q : Nat} {hs : List Head} {r : Except Fault Unit} (chain : F.Chain q hs r)
    {w : Walk} (ahead : F.Ahead w q) (data : w.outer.2.data = F.file.data) (notes : ρ) :
    ∃ notes' v, (Walk.forEach action).fill (notes, w) = (r, (notes', v)) ∧ seen notes' = seen notes ++ hs := by
  have count := chain.length_le
  rw [Walk.forEach, fill_bind_of_ok (fill_get _)]
  exact chain.forEachFrom noting ahead (by rw [data]; omega) notes

theorem notes_heads : F.Notes id fun h => modify fun ((hs, w) : List Head × Walk) => (hs ++ [h], w) := by
  intro q hs w on
  exact ⟨hs ++ [F.headFrom q], w, rfl, rfl, on⟩

theorem Chain.heads {stream : Stream} {walk : Walk} (opened : Walk.openFile stream = .ok walk) {q : Nat} {hs : List Head}
    {r : Except Fault Unit} (chain : F.Chain q hs r) (ahead : F.Ahead walk q) (data : walk.outer.2.data = F.file.data) :
    Walk.heads stream = (hs, r) := by
  obtain ⟨gathered, u, walked, met⟩ := chain.forEach notes_heads ahead data []
  simp only [Walk.heads, opened, walked]
  exact Prod.ext met rfl

end Frame

/-- An opened container that takes no filler is a frame, and its walk starts behind the letters of its type. -/
theorem Walk.frame_of_openFile {stream : Stream} {walk : Walk} (placed : stream.kind ≠ .sequential)
    (plain : (headAt stream.data stream.position).size % 2 = 0 ∨
      stream.data.length < stream.position + 16 + (headAt stream.data stream.position).size)
    (opened : openFile stream = .ok walk) :
    ∃ F : Frame, F.container.head = headAt stream.data stream.position ∧ F.base = stream.position + 16 ∧
      F.file.data = stream.data ∧ walk.outer.2.data = F.file.data ∧ F.Ahead walk walk.type.length ∧
      walk.type = ((stream.data.drop F.base).take F.container.head.size).take 4 := by
  obtain ⟨window, t, headed, typed, fresh⟩ := openFile_eq_ok opened
  obtain ⟨mounted, -, -⟩ := mounted_of_openOn headed
  obtain ⟨b, k, bytes, farther, read, aligned⟩ := readType_of_openOn headed
  obtain ⟨-, whole, rfl, rfl⟩ := openOn_eq_ok headed
  obtain ⟨type, outer⟩ := Prod.mk.inj (typed.symm.trans read)
  cases type
  let F : Frame := ⟨containerAt stream, { stream with position := stream.position + 16 }, stream.position + 16, mounted,
    if_neg placed, plain⟩
  have exactly : k = walk.type.length := by
    have size : walk.type.length ≤ stream.data.length - (stream.position + 16) := by
      rw [bytes, List.length_take, List.length_take, List.length_drop]
      exact Nat.le_trans (Nat.min_le_right _ _) (Nat.min_le_right _ _)
    rcases farther with rfl | ⟨ended, odd⟩
    · rfl
    · have head : (containerAt stream).head = headAt stream.data stream.position := rfl
      rw [head] at ended odd
      omega
  subst exactly
  refine ⟨F, rfl, rfl, rfl, by rw [outer]; rfl, ⟨walk, ?_, outer, aligned⟩, bytes⟩
  rw [fresh]
  exact leave_of_fresh rfl

end GameData.Container
