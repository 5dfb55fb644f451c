import GameData.Proofs.Container.Reading
import GameData.Proofs.Container.Walk

/-!
One step of a walk.

A read through the container moves the container and the file alike. Leaving a chunk brings the file to where the
container stands, whatever was done with the chunk, unless the container cannot be moved; and the head of the next chunk
is read from there. So the file is aligned with the container whenever a chunk has just been opened (`Walk.Entered`),
in every walk and with every use of the chunks before.
-/
namespace GameData

open Filling

namespace Container

/-- The file stands where the container does, if it is known where the container lies in the file. -/
def Aligned (c : Window) (q : Int) (p : Nat) : Prop := ∀ base, c.offset = some base → (p : Int) = base + q

/-- The container is open on an open file, and its data start in the file if it is known where. -/
structure Mounted (c : Window) (s : Stream) : Prop where
  isOpen : c.closed = false
  fileOpen : s.closed = false
  small : c.head.size < 4294967296
  based : ∀ base, c.offset = some base → 0 ≤ base ∧ base ≤ s.data.length

def mount (c : Window) (s : Stream) (q : Int) (p : Nat) : Outer := ({ c with position := q }, { s with position := p })

namespace Mounted

variable {c : Window} {s : Stream} (mounted : Mounted c s)
include mounted

/-- What the container gives is what is left in it and in the file, and both move by the same distance. They move
farther than that only by a filler, which is taken at the end of a container of odd size. -/
theorem read {n : Nat} (small : n ≤ Bytes.readLimit) (q : Int) (p : Nat) :
    ∃ (b : Bytes) (k : Nat), b = ((s.data.drop p).take (c.head.size - q).toNat).take n ∧ b.length ≤ k ∧
      (k = b.length ∨ q + b.length = c.head.size ∧ c.head.size % 2 = 1) ∧
      (outerMedium.read n).fill (mount c s q p) = (.ok b, mount c s (q + k) (p + k)) := by
  by_cases full : (c.head.size : Int) ≤ q
  · have none : (c.head.size - q : Int).toNat = 0 := by omega
    refine ⟨[], 0, ?_, Nat.le_refl _, .inl rfl, ?_⟩
    · rw [none, List.take_zero, List.take_nil]
    · rw [Int.natCast_zero, Int.add_zero, Nat.add_zero]
      exact Window.read_fill_of_full (w := { c with position := q }) Stream.medium mounted.isOpen n full
  · have asked : (if (n : Int) < 0 ∨ (c.head.size : Int) - q < n then (c.head.size : Int) - q else n) =
        (min n (c.head.size - q : Int).toNat : Nat) := by
      split <;> omega
    have taken := Stream.read_fill { s with position := p } mounted.fileOpen
      (Nat.le_trans (Nat.min_le_left n (c.head.size - q : Int).toNat) small)
    rw [Stream.rest, ← List.take_take] at taken
    generalize ((s.data.drop p).take (c.head.size - q : Int).toNat).take n = b at taken
    by_cases filler : q + b.length = c.head.size ∧ c.head.size % 2 = 1
    · have filled := Stream.read_fill { s with position := p + b.length } mounted.fileOpen (n := 1) (by decide)
      have run := Window.read_fill_filler (w := { c with position := q }) (m := Stream.medium) mounted.isOpen
        (Int.not_le.mp full) asked taken filler filled
      rw [Int.add_assoc, ← Int.natCast_add, Nat.add_assoc] at run
      exact ⟨b, _, rfl, Nat.le_add_right _ _, .inr filler, run⟩
    · exact ⟨b, b.length, rfl, Nat.le_refl _, .inl rfl, Window.read_fill (w := { c with position := q }) Stream.medium
        mounted.isOpen (Int.not_le.mp full) asked taken filler⟩

section Seek

variable {n q t base : Int} {p : Nat} {whence : Whence} (aimed : ({ c with position := q } : Window).target n whence = t)
include aimed

theorem seek (placed : c.offset = some base) (low : 0 ≤ t) (high : t ≤ c.head.size) :
    (outerMedium.seek n whence).fill (mount c s q p) = (.ok (), mount c s t (base + t).toNat) := by
  have based := mounted.based base placed
  have small := mounted.small
  have moved : (Stream.medium.seek (base + t) .start).fill { s with position := p } =
      (.ok (), { s with position := (base + t).toNat }) := by
    obtain ⟨d, lands⟩ := Int.eq_ofNat_of_zero_le (show 0 ≤ base + t by omega)
    rw [lands, Int.toNat_natCast]
    exact Stream.seek_fill_start { s with position := p } mounted.fileOpen (show d ≤ s.data.length + _ by omega)
  exact Window.seek_fill Stream.medium (w := { c with position := q }) mounted.isOpen placed aimed low high moved

theorem seek_outside (placed : c.offset = some base) (outside : t < 0 ∨ c.head.size < t) :
    (outerMedium.seek n whence).fill (mount c s q p) = (.error .outsideChunk, mount c s q p) :=
  Window.seek_fill_outside Stream.medium (w := { c with position := q }) mounted.isOpen placed aimed _ outside

end Seek

theorem seek_unplaced (unplaced : c.offset = none) (n q : Int) (p : Nat) (whence : Whence) :
    (outerMedium.seek n whence).fill (mount c s q p) = (.error (.system .cannotSeek), mount c s q p) := by
  change (Window.seek Stream.medium n whence).fill ({ c with position := q }, { s with position := p }) = _
  rw [Window.seek, Window.whenOpen_fill (w := { c with position := q }) mounted.isOpen]
  obtain ⟨head, offset, position, closed⟩ := c
  cases unplaced
  rfl

section Skip

variable {k : Window} (isOpen : k.closed = false) (known : k.offset ≠ none) (q : Int) (p : Nat)
include isOpen known

/-- Skipping a chunk moves the container by what the chunk has still to go. -/
theorem skip {base : Int} (placed : c.offset = some base) (low : 0 ≤ q + (k.head.next - k.position))
    (high : q + (k.head.next - k.position) ≤ c.head.size) :
    (Window.skip outerMedium).fill (k, mount c s q p) = (.ok (), ({ k with position := k.head.next },
      mount c s (q + (k.head.next - k.position)) (base + (q + (k.head.next - k.position))).toNat)) :=
  Window.skip_fill isOpen known (mounted.seek (Int.add_comm _ _) placed low high)

theorem skip_outside {base : Int} (placed : c.offset = some base)
    (outside : q + (k.head.next - k.position) < 0 ∨ c.head.size < q + (k.head.next - k.position)) :
    (Window.skip outerMedium).fill (k, mount c s q p) = (.error .outsideChunk, (k, mount c s q p)) :=
  Window.skip_fill_of_error isOpen known (mounted.seek_outside (Int.add_comm _ _) placed outside) fun _ same => by
    cases same

theorem skip_unplaced (unplaced : c.offset = none) :
    (Window.skip outerMedium).fill (k, mount c s q p) = (.ok (), (k, mount c s q p)) :=
  Window.skip_fill_of_system isOpen known (mounted.seek_unplaced unplaced _ q p .here)

end Skip

end Mounted

def outerLeft (o : Outer) : Bytes := o.2.rest.take o.1.room

theorem Mounted.gives {c : Window} {s : Stream} (mounted : Mounted c s) :
    outerMedium.Gives (fun o => c.Moved o.1 ∧ s.Moved o.2) outerLeft :=
  Window.gives (Stream.gives mounted.fileOpen) mounted.isOpen

/-- The chunk whose data start at `q` of the container, at the position `r` of these data. -/
def chunkFrom (h : Head) (q r : Int) : Window := { head := h, offset := some q, position := r }

theorem take_wanted {k : Window} {rest : Bytes} (short : rest.length ≤ k.room) (n : Int) :
    rest.take (k.wanted n) = rest.upTo n := by
  unfold Window.wanted Bytes.upTo
  split
  · exact List.take_of_length_le short
  · rw [← List.take_take, List.take_of_length_le short]

/-- These bytes of a chunk are left to be read through the container. -/
structure Facing (c : Window) (s : Stream) (h : Head) (q r : Int) (o : Outer) (rest : Bytes) : Prop where
  container : c.Moved o.1
  file : s.Moved o.2
  forward : 0 ≤ r
  left : (outerLeft o).take (chunkFrom h q r).room = rest

/-- A read of a chunk gives the front of what is left. Only a chunk of odd size moves by more than it gives. -/
theorem Facing.read {c : Window} {s : Stream} {h : Head} {q r : Int} {o : Outer} {rest : Bytes}
    (facing : Facing c s h q r o rest) (mounted : Mounted c s) (small : h.size < 4294967296) (n : Int) : ∃ r' o',
      (Window.read outerMedium n).fill (chunkFrom h q r, o) = (.ok (rest.upTo n), (chunkFrom h q r', o')) ∧
      Facing c s h q r' o' (rest.drop (rest.upTo n).length) ∧ (h.size % 2 = 0 → r' = r + (rest.upTo n).length) := by
  obtain ⟨container, file, forward, left⟩ := facing
  have room : (chunkFrom h q r).room ≤ h.size := by
    simp only [Window.room, chunkFrom]
    omega
  have limit : (chunkFrom h q r).wanted n ≤ Bytes.readLimit := by
    have wanted : (chunkFrom h q r).wanted n ≤ (chunkFrom h q r).room := by
      unfold Window.wanted
      split <;> omega
    exact Nat.le_trans (by omega : _ ≤ 4294967296) (by decide)
  have short : rest.length ≤ (chunkFrom h q r).room := by
    rw [← left, List.length_take]
    exact Nat.min_le_left _ _
  obtain ⟨r', o', run, ⟨container', file'⟩, left', forward', even⟩ :=
    Window.read_gives (w := chunkFrom h q r) mounted.gives rfl ⟨container, file⟩ limit
  rw [left, take_wanted short] at run even
  refine ⟨r', o', (Window.read_fill_wanted rfl n).trans run, ⟨container', file', Int.le_trans forward forward', ?_⟩, even⟩
  rw [← take_wanted short, Bytes.drop_length_take, ← left]
  exact left'

namespace Walk

/-- The walk is about to open a chunk, with the container and the file at these positions. -/
structure Ready (c : Window) (s : Stream) (q : Int) (p : Nat) (w : Walk) : Prop where
  outer : w.outer = mount c s q p
  aligned : Aligned c q p

/-- The walk has just opened a chunk, whose data start at these positions of the container and the file. -/
structure Entered (c : Window) (s : Stream) (h : Head) (q : Int) (p : Nat) (w : Walk) : Prop where
  outer : w.outer = mount c s q p
  aligned : Aligned c q p
  current : w.current = some { head := h, offset := some q }
  phase : w.phase = .within
  small : h.size < 4294967296

/-- The walk stands on a chunk, with this about the chunk and what it is read through. -/
structure Upon (Q : Window × Outer → Prop) (w : Walk) : Prop where
  phase : w.phase = .within
  chunk : ∃ k, w.current = some k ∧ Q (k, w.outer)

/-- Anything may have been read of the chunk, the container and the file. -/
def Loose (c : Window) (s : Stream) (x : Window × Outer) : Prop :=
  x.1.closed = false ∧ x.1.offset ≠ none ∧ c.Moved x.2.1 ∧ s.Moved x.2.2

theorem Entered.moved {c : Window} {s : Stream} {h : Head} {q : Int} {p : Nat} {w : Walk}
    (entered : Entered c s h q p w) : c.Moved w.outer.1 ∧ s.Moved w.outer.2 := by
  rw [entered.outer]
  exact ⟨⟨q, rfl⟩, p, rfl⟩

theorem Entered.loose {c : Window} {s : Stream} {h : Head} {q : Int} {p : Nat} {w : Walk}
    (entered : Entered c s h q p w) : Upon (Loose c s) w :=
  ⟨entered.phase, _, entered.current, rfl, Option.some_ne_none _, entered.moved⟩

section Step

variable {c : Window} {s : Stream} {q : Int} {p : Nat} {w : Walk}

section Leave

variable (mounted : Mounted c s) {k : Window} (within : w.phase = .within) (current : w.current = some k)
  (isOpen : k.closed = false) (known : k.offset ≠ none) (outer : w.outer = mount c s q p)
include mounted within current isOpen known outer

/-- In a container that cannot be moved, leaving a chunk leads nowhere. -/
theorem leave_unplaced (unplaced : c.offset = none) : ∃ v, leave.fill w = (.ok true, v) ∧ Ready c s q p v := by
  have skipped := mounted.skip_unplaced isOpen known q p unplaced
  rw [← outer] at skipped
  refine ⟨_, leave_of_skip within current skipped, outer, fun base placed => ?_⟩
  rw [unplaced] at placed
  cases placed

/-- Otherwise it leads to where the next chunk starts, with the file aligned again. -/
theorem leave_inside {base : Int} (placed : c.offset = some base) {t : Int}
    (aim : q + (k.head.next - k.position) = t) (low : 0 ≤ t) (high : t ≤ c.head.size) :
    ∃ v, leave.fill w = (.ok true, v) ∧ Ready c s t (base + t).toNat v := by
  subst aim
  have skipped := mounted.skip isOpen known q p placed low high
  have based := mounted.based base placed
  rw [← outer] at skipped
  refine ⟨_, leave_of_skip within current skipped, rfl, fun base' placed' => ?_⟩
  rw [placed] at placed'
  cases placed'
  omega

theorem leave_outside {base : Int} (placed : c.offset = some base) {t : Int}
    (aim : q + (k.head.next - k.position) = t) (outside : t < 0 ∨ c.head.size < t) :
    ∃ u, leave.fill w = (.error .outsideChunk, u) := by
  subst aim
  have failed := mounted.skip_outside isOpen known q p placed outside
  rw [← outer] at failed
  exact ⟨_, leave_of_skip_error within current failed⟩

end Leave

/-- The next head is read at an offset of the file or above it, unless the walk ends with a fault before. -/
def Onward (c : Window) (s : Stream) (low : Nat) (w : Walk) : Prop :=
  (∃ u, leave.fill w = (.error .outsideChunk, u)) ∨ ∃ q p v, leave.fill w = (.ok true, v) ∧ Ready c s q p v ∧ low ≤ p

theorem Ready.onward (ready : Ready c s q p w) (fresh : w.phase = .fresh) : Onward c s 0 w :=
  .inr ⟨q, p, w, leave_of_fresh fresh, ready, Nat.zero_le p⟩

/-- A chunk is left for an offset that no part of the walk before it bounds, unless it is known where the container
lies. -/
theorem onward_of_upon (mounted : Mounted c s) {k : Window} (within : w.phase = .within) (current : w.current = some k)
    (isOpen : k.closed = false) (known : k.offset ≠ none) (outer : w.outer = mount c s q p) {low : Nat}
    (unplaced : c.offset = none → low ≤ p)
    (placed : ∀ base t, c.offset = some base → 0 ≤ t → q + (k.head.next - k.position) = t → low ≤ (base + t).toNat) :
    Onward c s low w := by
  cases place : c.offset with
  | none =>
      obtain ⟨v, left, ready⟩ := leave_unplaced mounted within current isOpen known outer place
      exact .inr ⟨q, p, v, left, ready, unplaced place⟩
  | some base =>
      by_cases inside : 0 ≤ q + (k.head.next - k.position) ∧ q + (k.head.next - k.position) ≤ c.head.size
      · obtain ⟨v, left, ready⟩ :=
          leave_inside mounted within current isOpen known outer place rfl inside.1 inside.2
        exact .inr ⟨_, _, v, left, ready, placed base _ place inside.1 rfl⟩
      · exact .inl (leave_outside mounted within current isOpen known outer place rfl (by omega))

theorem Upon.onward (mounted : Mounted c s) (standing : Upon (Loose c s) w) : Onward c s 0 w := by
  obtain ⟨within, k, current, isOpen, known, ⟨q, container⟩, ⟨p, file⟩⟩ := standing
  have outer : w.outer = mount c s q p := Prod.ext container file
  exact onward_of_upon mounted within current isOpen known outer (fun _ => Nat.zero_le _)
    fun _ _ _ _ _ => Nat.zero_le _

/-- A chunk of which nothing was read leads to a later one, whatever its head tells: a distance that leads back does not
lead behind the chunk's own head, which was read at `p`. -/
theorem Entered.onward (mounted : Mounted c s) {h : Head} {k : Nat} (whole : 16 ≤ k)
    (entered : Entered c s h q (p + k) w) : Onward c s (p + 1) w := by
  have next : -16 < h.next := by
    unfold Head.next
    split <;> omega
  refine onward_of_upon mounted entered.phase entered.current rfl (Option.some_ne_none _) entered.outer
    (fun _ => by omega) fun base t placed _ aim => ?_
  have before := entered.aligned base placed
  have based := mounted.based base placed
  dsimp only at aim
  omega

/-- The next chunk is opened if there is a whole head of it in the container and the file. -/
theorem Ready.openNext_of_whole (mounted : Mounted c s) (ready : Ready c s q p w) (whole : q + 16 ≤ c.head.size)
    (inside : p + 16 ≤ s.data.length) : ∃ (k : Nat) (u : Walk), 16 ≤ k ∧
      (k = 16 ∨ q + 16 = c.head.size ∧ c.head.size % 2 = 1) ∧
      Walk.openNext.fill w = (.ok (some (headAt s.data p)), u) ∧ Entered c s (headAt s.data p) (q + k) (p + k) u := by
  obtain ⟨b, k, bytes, moved, farther, read⟩ := mounted.read (n := 16) (by decide) q p
  rw [← ready.outer] at read
  have read : (outerMedium.read 16).fill w.outer = (.ok b, mount c s (q + k) (p + k)) := read
  have head : b = s.data.slice p 16 := by
    rw [bytes, List.take_take, Nat.min_eq_left (by omega)]
    rfl
  have length : b.length = 16 := by rw [head, Bytes.length_slice_of_le inside]
  rw [length] at moved farther
  have told : outerMedium.tell.fill (mount c s (q + k) (p + k)) = (.ok (some (q + k)), mount c s (q + k) (p + k)) := by
    change Window.tell.fill (mount c s (q + k) (p + k)) = _
    rw [Window.tell, mount, Window.whenOpen_fill (w := { c with position := q + k }) mounted.isOpen]
    rfl
  have opened : (Window.openOn outerMedium).fill w.outer =
      (.ok { head := headAt s.data p, offset := some (q + k) }, mount c s (q + k) (p + k)) := by
    rw [Window.openOn, fill_bind_of_ok read]
    simp only [length, Head.length, if_true]
    rw [fill_bind_of_ok told, head]
    rfl
  refine ⟨k, _, moved, farther, openNext_of_ok opened, rfl, fun base placed => ?_, rfl, rfl, headAt_size_lt _ _⟩
  have := ready.aligned base placed
  omega

theorem Ready.openNext_of_short (mounted : Mounted c s) (ready : Ready c s q p w)
    (short : ¬ (q + 16 ≤ c.head.size ∧ p + 16 ≤ s.data.length)) : ∃ u, Walk.openNext.fill w = (.ok none, u) := by
  obtain ⟨b, k, bytes, -, -, read⟩ := mounted.read (n := 16) (by decide) q p
  rw [← ready.outer] at read
  have read : (outerMedium.read 16).fill w.outer = (.ok b, mount c s (q + k) (p + k)) := read
  have length : b.length ≠ 16 := by
    rw [bytes, List.length_take, List.length_take, List.length_drop]
    omega
  have opened : (Window.openOn outerMedium).fill w.outer = (.error .endOfFile, mount c s (q + k) (p + k)) := by
    rw [Window.openOn, fill_bind_of_ok read, Head.length, if_neg length]
    rfl
  exact ⟨_, openNext_of_end opened⟩

theorem Ready.openNext (mounted : Mounted c s) (ready : Ready c s q p w) :
    (∃ u, Walk.openNext.fill w = (.ok none, u)) ∨
    ∃ (k : Nat) (u : Walk), 16 ≤ k ∧ p + 16 ≤ s.data.length ∧ Walk.openNext.fill w = (.ok (some (headAt s.data p)), u) ∧
      Entered c s (headAt s.data p) (q + k) (p + k) u := by
  by_cases whole : q + 16 ≤ c.head.size ∧ p + 16 ≤ s.data.length
  · obtain ⟨k, u, long, -, opened, entered⟩ := ready.openNext_of_whole mounted whole.1 whole.2
    exact .inr ⟨k, u, long, whole.2, opened, entered⟩
  · exact .inl (ready.openNext_of_short mounted whole)

/-- A chunk is entered with the file aligned. -/
theorem Onward.entered (mounted : Mounted c s) {low : Nat} (onward : Onward c s low w) {v : Walk} {h : Head}
    (moved : advance.fill w = (.ok (some h), v)) : ∃ q p, Entered c s h q p v := by
  rcases onward with ⟨u, failed⟩ | ⟨q, p, u, left, ready, -⟩
  · rw [advance_of_leave_error failed] at moved
    cases moved
  · rw [advance_of_leave left] at moved
    rcases ready.openNext mounted with ⟨_, ended⟩ | ⟨k, _, _, _, opened, entered⟩
    · rw [ended] at moved
      cases moved
    · rw [opened] at moved
      cases moved
      exact ⟨_, _, entered⟩

end Step

/-- The head of a container is read from an open stream, and the window stands where its data start. -/
theorem mounted_of_openOn {stream t : Stream} {window : Window}
    (headed : (Window.openOn Stream.medium).fill stream = (.ok window, t)) :
    Mounted window t ∧ Aligned window window.position t.position ∧ t.data = stream.data := by
  obtain ⟨isOpen, whole, rfl, rfl⟩ := openOn_eq_ok headed
  have based : ∀ base, (containerAt stream).offset = some base → base = (stream.position + 16 : Nat) := by
    intro base placed
    unfold containerAt at placed
    split at placed
    · cases placed
    · exact (Option.some.inj placed).symm
  refine ⟨⟨rfl, isOpen, headAt_size_lt _ _, fun base placed => ?_⟩, fun base placed => ?_, rfl⟩
  · rw [based base placed]
    exact ⟨Int.natCast_nonneg _, Int.ofNat_le.mpr whole⟩
  · rw [based base placed]
    exact (Int.add_zero _).symm

/-- The letters of the type can be read, some of them perhaps, wherever the head was. -/
theorem readType_of_openOn {stream t : Stream} {window : Window}
    (headed : (Window.openOn Stream.medium).fill stream = (.ok window, t)) :
    ∃ (b : Bytes) (k : Nat), b = ((stream.data.drop t.position).take window.head.size).take 4 ∧
      (k = b.length ∨ b.length = window.head.size ∧ window.head.size % 2 = 1) ∧
      (Window.read Stream.medium 4).fill (window, t) = (.ok b, mount window t k (t.position + k)) ∧
      Aligned window k (t.position + k) := by
  obtain ⟨mounted, aligned, data⟩ := mounted_of_openOn headed
  have front : window.position = 0 := by
    obtain ⟨-, -, rfl, -⟩ := openOn_eq_ok headed
    rfl
  obtain ⟨b, k, bytes, -, farther, read⟩ := mounted.read (n := 4) (by decide) window.position t.position
  rw [front, Int.zero_add] at read farther
  rw [front, Int.sub_zero, Int.toNat_natCast, data] at bytes
  have start : mount window t 0 t.position = (window, t) := by rw [mount, ← front]
  rw [start] at read
  refine ⟨b, k, bytes, farther.imp_right fun ended => ⟨Int.ofNat_inj.mp ended.1, ended.2⟩, read, fun base placed => ?_⟩
  have here := aligned base placed
  rw [front] at here
  omega

/-- An opened container stands in front of its first chunk. -/
theorem ready_of_openFile {stream : Stream} {walk : Walk} (opened : openFile stream = .ok walk) :
    ∃ c s q p, Mounted c s ∧ s.data = stream.data ∧ Ready c s q p walk ∧ walk.phase = .fresh := by
  obtain ⟨window, t, headed, typed, fresh⟩ := openFile_eq_ok opened
  obtain ⟨mounted, -, data⟩ := mounted_of_openOn headed
  obtain ⟨b, k, -, -, read, aligned⟩ := readType_of_openOn headed
  have outer : walk.outer = mount window t k (t.position + k) := congrArg Prod.snd (typed.symm.trans read)
  exact ⟨window, t, _, _, mounted, data, ⟨outer, aligned⟩, by rw [fresh]⟩

section Holds

variable {c : Window} {s : Stream} {h : Head} {q : Int} {w : Walk} {rest : Bytes}

/-- The walk stands on a chunk of which these bytes are left. -/
def Holds (c : Window) (s : Stream) (h : Head) (q : Int) (w : Walk) (rest : Bytes) : Prop :=
  ∃ r, w.current = some (chunkFrom h q r) ∧ Facing c s h q r w.outer rest

theorem Entered.holds {p : Nat} (entered : Entered c s h q p w) :
    Holds c s h q w (s.data.slice p (min h.size (c.head.size - q : Int).toNat)) := by
  refine ⟨0, entered.current, entered.moved.1, entered.moved.2, Int.le_refl 0, ?_⟩
  rw [entered.outer, Bytes.slice, ← List.take_take]
  rfl

theorem Holds.readChunk (holds : Holds c s h q w rest) (mounted : Mounted c s) (small : h.size < 4294967296) (n : Int) :
    ∃ w', (Walk.readChunk n).fill w = (.ok (rest.upTo n), w') ∧
      Holds c s h q w' (rest.drop (rest.upTo n).length) := by
  obtain ⟨r, current, facing⟩ := holds
  obtain ⟨r', o', read, facing', -⟩ := facing.read mounted small n
  have step := onChunk_fill (m := Window.read outerMedium n) current
  rw [read] at step
  exact ⟨_, fill_bind_of_ok step _, r', rfl, facing'⟩

/-- A chunk that has come to its end has nothing left. -/
theorem Holds.tell (holds : Holds c s h q w rest) : ∃ r, (onChunk Window.tell).fill w = (.ok (some (some r)), w) ∧
    ((h.size : Int) ≤ r → rest = []) := by
  obtain ⟨r, current, facing⟩ := holds
  refine ⟨r, ?_, fun ended => ?_⟩
  · obtain ⟨outer, type, _, phase⟩ := w
    cases current
    rfl
  · have none : (chunkFrom h q r).room = 0 := by
      simp only [Window.room, chunkFrom]
      omega
    rw [← facing.left, none, List.take_zero]

end Holds

section Keeps

variable {Q : Window × Outer → Prop} {s : Stream} {α : Type}

theorem keeps_onChunk {m : Filling (Window × Outer) α} (kept : Keeps Q m) : Keeps (Upon Q) (onChunk m) := by
  rintro w ⟨within, k, current, holds⟩
  rw [onChunk_fill current]
  exact ⟨within, _, rfl, kept (k, w.outer) holds⟩

theorem keeps_readChunk (kept : (Window.medium outerMedium).Keeps Q) (n : Int) : Keeps (Upon Q) (readChunk n) :=
  (keeps_onChunk (kept.read n)).bind fun _ => .pure _

/-- Nothing that is done with the chunk, or with the file behind it, breaks the condition. -/
structure Steady (s : Stream) (Q : Window × Outer → Prop) : Prop where
  chunk : (Window.medium outerMedium).Keeps Q
  file : ∀ k o, Q (k, o) → s.Moved o.2 ∧ ∀ t, s.Moved t → Q (k, (o.1, t))

theorem Steady.onStream (steady : Steady s Q) {m : Filling Stream α} (kept : Keeps s.Moved m) :
    Keeps (Upon Q) (onStream m) := by
  rintro w ⟨within, k, current, holds⟩
  obtain ⟨moved, elsewhere⟩ := steady.file k w.outer holds
  exact ⟨within, k, current, elsewhere _ (kept w.outer.2 moved)⟩

theorem keeps_loose {c : Window} {m : Filling (Window × Outer) α}
    (kept : ∀ k, Keeps (fun x : Window × Outer => Window.Moved k x.1 ∧ c.Moved x.2.1 ∧ s.Moved x.2.2) m) :
    Keeps (Loose c s) m := by
  rintro ⟨k, o⟩ ⟨isOpen, known, moved⟩
  obtain ⟨⟨p, same⟩, moved⟩ := kept k (k, o) ⟨⟨k.position, rfl⟩, moved⟩
  refine ⟨?_, ?_, moved⟩
  · rw [same]
    exact isOpen
  · rw [same]
    exact known

theorem steady_loose (c : Window) : Steady s (Loose c s) where
  chunk :=
    have kept := fun k => Window.keeps (Window.keeps Stream.keeps c) k
    ⟨fun n => keeps_loose fun k => (kept k).read n, fun n whence => keeps_loose fun k => (kept k).seek n whence,
      keeps_loose fun k => (kept k).tell⟩
  file := by
    rintro k o ⟨isOpen, known, container, file⟩
    exact ⟨file, fun t moved => ⟨isOpen, known, container, moved⟩⟩

end Keeps

section Reaches

variable {ρ : Type}

/-- The states in which a walk asks for the next chunk, when it does something with each chunk. -/
inductive Reaches (action : Head → Filling (ρ × Walk) Unit) (first : ρ × Walk) : ρ × Walk → Prop
  | first : Reaches action first first
  | next {r : ρ} {w v : Walk} {h : Head} {x : ρ × Walk} (before : Reaches action first (r, w))
      (moved : advance.fill w = (.ok (some h), v)) (acted : (action h).fill (r, v) = (.ok (), x)) :
      Reaches action first x

variable {action : Head → Filling (ρ × Walk) Unit} {first x : ρ × Walk}

/-- The loop over the chunks goes on from each of these states. -/
theorem Reaches.forEachFrom (reached : Reaches action first x) :
    ∃ count, ∀ fuel, (Walk.forEachFrom action (fuel + count)).fill first = (Walk.forEachFrom action fuel).fill x := by
  induction reached with
  | first => exact ⟨0, fun _ => rfl⟩
  | @next r w v h x before moved acted ih =>
      obtain ⟨count, same⟩ := ih
      refine ⟨count + 1, fun fuel => ?_⟩
      have step := same (fuel + 1)
      rw [Walk.forEachFrom, fill_bind_of_ok (onSecond_fill moved), fill_bind_of_ok acted] at step
      rw [← step, Nat.add_right_comm]
      rfl

def Stays (action : Head → Filling (ρ × Walk) Unit) : Prop :=
  ∀ c s h, Keeps (fun x : ρ × Walk => Upon (Loose c s) x.2) (action h)

theorem Reaches.onward (stays : Stays action) {c : Window} {s : Stream} (mounted : Mounted c s)
    (onward : Onward c s 0 first.2) (reached : Reaches action first x) : Onward c s 0 x.2 := by
  induction reached with
  | first => exact onward
  | @next r w v h x before moved acted ih =>
      obtain ⟨q, p, entered⟩ := ih.entered mounted moved
      have kept := stays c s h (r, v) entered.loose
      rw [acted] at kept
      exact Upon.onward mounted kept

/-- Whatever was done with the chunks before it, a walk enters each chunk with the file aligned. -/
theorem Reaches.entered (stays : Stays action) {stream : Stream} {walk : Walk} {notes : ρ}
    (opened : openFile stream = .ok walk) (reached : Reaches action (notes, walk) x) {v : Walk} {h : Head}
    (moved : advance.fill x.2 = (.ok (some h), v)) :
    ∃ c s q p, Mounted c s ∧ s.data = stream.data ∧ Entered c s h q p v := by
  obtain ⟨c, s, _, _, mounted, data, ready, fresh⟩ := ready_of_openFile opened
  obtain ⟨q, p, entered⟩ := (reached.onward stays mounted (ready.onward fresh)).entered mounted moved
  exact ⟨c, s, q, p, mounted, data, entered⟩

end Reaches

end Walk

end Container

end GameData
