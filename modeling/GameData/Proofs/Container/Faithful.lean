import Mathlib
import GameData.Proofs.Container.Consumer

/-!
Chunks as streams.

A chunk is read through two windows, each of which cuts a read short and may take a filler, and it is moved by way of
the container. Main statement: as long as no call fails on either, reads and moves of a chunk give what the same calls give
on a stream in memory that holds the data of the chunk and nothing else. A chunk of odd size counts its filler, so that moves
from where it stands are excepted there.
-/
namespace GameData

open Filling

inductive Call where
  | read (n : Int)
  | seek (n : Int) (whence : Whence)

/-- The call is not a read of a number that a stream cannot count. -/
def Call.fits : Call → Bool
  | .read n => Stream.Countable n
  | .seek _ _ => true

def Medium.replies {σ : Type} (m : Medium σ) : List Call → Filling σ (List Bytes)
  | [] => pure []
  | .read n :: rest => do
    let b ← m.read n
    let bs ← m.replies rest
    pure (b :: bs)
  | .seek n whence :: rest => do
    m.seek n whence
    m.replies rest

theorem Bytes.length_upTo_le (b : Bytes) (n : Int) : (b.upTo n).length ≤ b.length := by
  unfold Bytes.upTo
  split
  · exact Nat.le_refl _
  · exact List.length_take_le' _ _

theorem Stream.read_fill_overflow (s : Stream) {n : Int} (large : ¬ Countable n) :
    (Stream.read n).fill s = (.error .overflow, s) := by
  rw [Stream.read, fill_bind_of_ok (fill_get s)]
  simp only [large, not_false_eq_true, if_true]
  rfl

namespace Container

/-- A move of a chunk succeeds only if it stays in the chunk and in the container, and then it moves the file. -/
theorem Mounted.seek_chunk_eq_ok {c : Window} {s : Stream} (mounted : Mounted c s) {h : Head} {q r a n : Int} {b : Nat}
    {whence : Whence} {x : Window × Outer}
    (run : (Window.seek outerMedium n whence).fill (chunkFrom h q r, mount c s a b) = (.ok (), x)) :
    ∃ base d, c.offset = some base ∧ (chunkFrom h q r).target n whence = d ∧ 0 ≤ d ∧ d ≤ h.size ∧
      x = (chunkFrom h q d, mount c s (q + d) (base + (q + d)).toNat) := by
  generalize aimed : (chunkFrom h q r).target n whence = d
  by_cases outside : d < 0 ∨ (h.size : Int) < d
  · rw [Window.seek_fill_outside outerMedium rfl rfl aimed _ outside] at run
    cases run
  have low : 0 ≤ d := by omega
  have high : d ≤ h.size := by omega
  have through : (mount c s a b).1.target (q + d) .start = q + d := rfl
  cases placed : c.offset with
  | none =>
      have failed := mounted.seek_unplaced placed (q + d) a b .start
      rw [Window.seek_fill_of_error outerMedium rfl rfl aimed low high failed] at run
      cases run
  | some base =>
      by_cases beyond : q + d < 0 ∨ (c.head.size : Int) < q + d
      · have failed := mounted.seek_outside (p := b) through placed beyond
        rw [Window.seek_fill_of_error outerMedium rfl rfl aimed low high failed] at run
        cases run
      · have moved := mounted.seek (p := b) through placed (by omega) (by omega)
        rw [Window.seek_fill outerMedium rfl rfl aimed low high moved] at run
        cases run
        exact ⟨base, d, rfl, rfl, low, high, rfl⟩

/-- The data of a chunk as a stream in memory: they start at `p` of the file. -/
def dataFrom (s : Stream) (h : Head) (p t : Nat) : Stream := { data := s.data.slice p h.size, position := t }

/-- The chunk and the stream in memory have the same bytes left, and the stream has not left its data. In a chunk of even
size they stand at the same position. -/
structure Mirrors (c : Window) (s : Stream) (h : Head) (q : Int) (p : Nat) (r : Int) (o : Outer) (t : Nat) : Prop where
  facing : Facing c s h q r o (dataFrom s h p t).rest
  within : t ≤ h.size
  even : h.size % 2 = 0 → r = t

def Covered (c : Window) (s : Stream) (h : Head) (q : Int) (p : Nat) : Prop :=
  h.size = 0 ∨ q + h.size ≤ c.head.size ∧ p + h.size ≤ s.data.length

theorem covered_of_forall {c : Window} {s : Stream} {h : Head} {q : Int} {p : Nat}
    (inside : ∀ i < h.size, q + i < c.head.size ∧ p + i < s.data.length) : Covered c s h q p := by
  rcases Nat.eq_zero_or_pos h.size with none | some
  · exact .inl none
  · have last := inside (h.size - 1) (by omega)
    exact .inr (by omega)

namespace Mirrors

variable {c : Window} {s : Stream} {h : Head} {q r : Int} {p t : Nat} {o : Outer}

/-- At any place of the data, with the file moved there. -/
theorem at_place (covered : Covered c s h q p) {d : Nat} (high : d ≤ h.size) :
    Mirrors c s h q p d (mount c s (q + d) (p + d)) d := by
  refine ⟨⟨⟨_, rfl⟩, ⟨_, rfl⟩, Int.natCast_nonneg d, ?_⟩, high, fun _ => rfl⟩
  have size : min (h.size - d : Int).toNat (c.head.size - (q + d) : Int).toNat = h.size - d := by
    unfold Covered at covered
    omega
  change ((s.data.drop (p + d)).take (c.head.size - (q + d) : Int).toNat).take (h.size - d : Int).toNat =
    (s.data.slice p h.size).drop d
  rw [List.take_take, size, Bytes.slice, List.drop_take, List.drop_drop]

theorem read (mirrors : Mirrors c s h q p r o t) (mounted : Mounted c s) (small : h.size < 4294967296) {n : Int}
    (fits : Stream.Countable n) : ∃ b r' o' t',
      (Window.read outerMedium n).fill (chunkFrom h q r, o) = (.ok b, (chunkFrom h q r', o')) ∧
      (Stream.read n).fill (dataFrom s h p t) = (.ok b, dataFrom s h p t') ∧ Mirrors c s h q p r' o' t' := by
  obtain ⟨r', o', run, facing, even⟩ := mirrors.facing.read mounted small n
  have inMemory : ¬ ((dataFrom s h p t).kind = .disk ∧ n < -1) := by
    rintro ⟨onDisk, -⟩
    cases onDisk
  have given := Stream.read_fill_of_countable (dataFrom s h p t) rfl fits inMemory
  have within : t + ((dataFrom s h p t).rest.upTo n).length ≤ h.size := by
    have short := Bytes.length_slice_le s.data p h.size
    have front := Bytes.length_upTo_le (dataFrom s h p t).rest n
    have left : (dataFrom s h p t).rest.length = (s.data.slice p h.size).length - t := List.length_drop
    have start := mirrors.within
    omega
  generalize (dataFrom s h p t).rest.upTo n = b at run facing even given within
  have rest : (dataFrom s h p (t + b.length)).rest = (dataFrom s h p t).rest.drop b.length := by
    rw [Stream.rest, Stream.rest, List.drop_drop]
    rfl
  rw [← rest] at facing
  refine ⟨b, r', o', t + b.length, run, given, facing, within, fun size => ?_⟩
  rw [even size, mirrors.even size]
  exact (Int.natCast_add _ _).symm

/-- A move that succeeds leads both to the same place. -/
theorem seek (mirrors : Mirrors c s h q p r o t) (mounted : Mounted c s) (aligned : Aligned c q p)
    (small : h.size < 4294967296) (covered : Covered c s h q p) {n : Int} {whence : Whence}
    (relative : whence = .here → h.size % 2 = 0) {x : Window × Outer}
    (run : (Window.seek outerMedium n whence).fill (chunkFrom h q r, o) = (.ok (), x)) : ∃ r' o' t',
      x = (chunkFrom h q r', o') ∧ (Stream.seek n whence).fill (dataFrom s h p t) = (.ok (), dataFrom s h p t') ∧
      Mirrors c s h q p r' o' t' := by
  obtain ⟨⟨⟨a, container⟩, ⟨b, file⟩, -, -⟩, within, even⟩ := mirrors
  obtain rfl : o = mount c s a b := Prod.ext container file
  obtain ⟨base, d, placed, aimed, low, high, rfl⟩ := mounted.seek_chunk_eq_ok run
  have here := aligned base placed
  have length : (s.data.slice p h.size).length = h.size := by
    rw [Bytes.length_slice]
    unfold Covered at covered
    omega
  obtain ⟨d, rfl⟩ := Int.eq_ofNat_of_zero_le low
  have place : (base + (q + d)).toNat = p + d := by omega
  rw [place]
  have lands : (dataFrom s h p t).target n whence = d := by
    rw [← aimed]
    cases whence with
    | start => rfl
    | here =>
        have same := even (relative rfl)
        simp only [Stream.target, Window.target, dataFrom, chunkFrom, same]
        omega
    | finish =>
        simp only [Stream.target, Window.target, dataFrom, chunkFrom, length]
        omega
  -- The stream stays within its data, so that it is never told to move farther than a word can say.
  have far : Bytes.readLimit ≤ (dataFrom s h p t).reach := Nat.le_max_left _ _
  have limit : 4294967296 ≤ Bytes.readLimit := by decide
  have movable : (dataFrom s h p t).Movable n := by
    have near : -(h.size : Int) ≤ n ∧ n ≤ h.size := by
      cases whence <;> simp only [Stream.target, dataFrom, length] at lands <;> omega
    unfold Stream.Movable
    omega
  exact ⟨d, _, d, rfl, Stream.seek_fill (dataFrom s h p t) rfl lands movable (by omega),
    at_place covered (Int.ofNat_le.mp high)⟩

end Mirrors

/-- The run: calls that succeed on the chunk give the same replies on the stream. -/
theorem Mirrors.replies {c : Window} {s : Stream} {h : Head} {q : Int} {p : Nat} (mounted : Mounted c s)
    (aligned : Aligned c q p) (small : h.size < 4294967296) (covered : Covered c s h q p) {calls : List Call}
    (relative : ∀ n, .seek n .here ∈ calls → h.size % 2 = 0) {r : Int} {o : Outer} {t : Nat}
    (mirrors : Mirrors c s h q p r o t) {given : List Bytes} {x : Window × Outer}
    (run : ((Window.medium outerMedium).replies calls).fill (chunkFrom h q r, o) = (.ok given, x)) :
    ((Stream.medium.replies calls).fill (dataFrom s h p t)).1 =
      if calls.all Call.fits then .ok given else .error .overflow := by
  induction calls generalizing r o t given with
  | nil =>
      cases run
      rfl
  | cons call rest ih =>
      have later : ∀ n, Call.seek n .here ∈ rest → h.size % 2 = 0 :=
        fun n mem => relative n (List.mem_cons_of_mem _ mem)
      rw [List.all_cons]
      cases call with
      | read n =>
          by_cases fits : Stream.Countable n
          · obtain ⟨b, r', o', t', read, taken, mirrors'⟩ := mirrors.read mounted small fits
            obtain ⟨bs, y, more, ended⟩ := fill_bind_eq_ok.mp ((fill_bind_of_ok read _).symm.trans run)
            cases ended
            have same := ih later mirrors' more
            have joined : ((Stream.medium.replies (.read n :: rest)).fill (dataFrom s h p t)).1 =
                ((Stream.medium.replies rest).fill (dataFrom s h p t')).1.map (b :: ·) := by
              have taken : (Stream.medium.read n).fill (dataFrom s h p t) = (.ok b, dataFrom s h p t') := taken
              rw [Medium.replies, fill_bind_of_ok taken]
              exact congrArg Prod.fst (fill_bind_pure rfl _)
            rw [joined, same, Call.fits, decide_eq_true fits, Bool.true_and]
            split <;> rfl
          · have refused := Stream.read_fill_overflow (dataFrom s h p t) fits
            rw [Call.fits, decide_eq_false fits, Bool.false_and]
            exact congrArg Prod.fst (fill_bind_of_error refused _)
      | seek n whence =>
          obtain ⟨_, y, sought, more⟩ := fill_bind_eq_ok.mp run
          obtain ⟨r', o', t', rfl, moved, mirrors'⟩ := mirrors.seek mounted aligned small covered
            (fun here => relative n (here ▸ List.mem_cons_self)) sought
          rw [Call.fits, Bool.true_and, ← ih later mirrors' more]
          exact congrArg Prod.fst (fill_bind_of_ok moved _)

/-- As long as no call fails on either of them, reads and moves of a chunk give what they give on a stream in memory that
holds its data; the chunk may be any one that a walk comes to, and anything may have been done with the chunks before
it. Calls that do not fail on the chunk fail on the stream only by a number that it cannot count. -/
theorem chunk_reads_as_stream {ρ : Type} {stream : Stream} {walk : Walk} (opened : Walk.openFile stream = .ok walk)
    (consumer : ρ → Head → Consumer ρ) (notes : ρ) {x : (List Head × ρ) × Walk}
    (reached : Walk.Reaches (Walk.consume consumer) (([], notes), walk) x) {v : Walk} {h : Head}
    (moved : Walk.advance.fill x.2 = (.ok (some h), v))
    (inside : ∀ i < h.size, v.outer.1.position + i < v.outer.1.head.size ∧ v.outer.2.position + i < stream.data.length)
    {calls : List Call} (relative : ∀ n, .seek n .here ∈ calls → h.size % 2 = 0) {given : List Bytes} {u : Walk}
    (run : (Walk.onChunk ((Window.medium outerMedium).replies calls)).fill v = (.ok (some given), u)) :
    (∀ replies, ((Stream.medium.replies calls).fill { data := stream.data.slice v.outer.2.position h.size }).1 =
      .ok replies → replies = given) ∧
    (calls.all Call.fits = true →
      ((Stream.medium.replies calls).fill { data := stream.data.slice v.outer.2.position h.size }).1 = .ok given) := by
  obtain ⟨c, s, q, p, mounted, data, entered⟩ := reached.entered (Walk.stays_consume consumer) opened moved
  rw [← data, entered.outer] at inside ⊢
  have step := Walk.onChunk_fill (m := (Window.medium outerMedium).replies calls) entered.current
  rw [run, entered.outer] at step
  obtain ⟨_, replied, same⟩ := map_eq_ok.mp (congrArg Prod.fst step).symm
  cases same
  -- The chunk has just been opened: it and the stream stand at the start of the data.
  have covered : Covered c s h q p := covered_of_forall inside
  have mirrors := Mirrors.at_place covered (Nat.zero_le _)
  rw [Int.natCast_zero, Int.add_zero, Nat.add_zero] at mirrors
  have same := mirrors.replies mounted entered.aligned entered.small covered relative (Prod.ext replied rfl)
  refine ⟨fun replies answered => ?_, fun fit => same.trans (if_pos fit)⟩
  have answered := same.symm.trans answered
  split at answered
  · exact (Except.ok.inj answered).symm
  · cases answered

/-- A walk over two chunks before the first one and on the second one. -/
def oddOpened : Walk where
  outer := ({ head := ⟨Bytes.ofText "ILFF", 42, 4, 0⟩, offset := some 16, position := 4 },
    { data := oddSample 42, position := 20, kind := .disk })
  type := Bytes.ofText "TYPE"

def lastEntered : Walk where
  outer := ({ head := ⟨Bytes.ofText "ILFF", 42, 4, 0⟩, offset := some 16, position := 40 },
    { data := oddSample 42, position := 56, kind := .disk })
  type := Bytes.ofText "TYPE"
  current := some { head := ⟨Bytes.ofText "LAST", 2, 4, 0⟩, offset := some 40 }
  phase := .within

theorem reaches_last : ∃ x, Walk.Reaches (Walk.consume restless) (([], 0), oddOpened) x ∧
    Walk.advance.fill x.2 = (.ok (some ⟨Bytes.ofText "LAST", 2, 4, 0⟩), lastEntered) := by
  have moved : (Walk.advance.fill oddOpened).1 = .ok (some ⟨Bytes.ofText "ODDS", 3, 4, 20⟩) := by cbv
  have acted : ((Walk.consume restless ⟨Bytes.ofText "ODDS", 3, 4, 20⟩).fill
      (([], 0), (Walk.advance.fill oddOpened).2)).1 = .ok () := by
    cbv
  exact ⟨_, .next .first (Prod.ext moved rfl) (Prod.ext acted rfl), by cbv⟩

/-- Reads in parts and beyond the end, and moves of all sorts. -/
def wandering : List Call :=
  [.read 1, .seek (-1) .here, .read 7, .read (-1), .seek (-1) .finish, .read (-5), .seek 0 .start, .read (-1)]

theorem chunk_reads_as_stream_oddSample :
    Walk.openFile { data := oddSample 42, kind := .disk } = .ok oddOpened ∧
    ((Walk.onChunk ((Window.medium outerMedium).replies wandering)).fill lastEntered).1 =
      .ok (some [[4], [4, 5], [], [5], [4, 5]]) ∧
    ((Stream.medium.replies wandering).fill { data := (oddSample 42).slice 56 2 }).1 =
      .ok [[4], [4, 5], [], [5], [4, 5]] := by
  have opened : Walk.openFile { data := oddSample 42, kind := .disk } = .ok oddOpened := by cbv
  have run : ((Walk.onChunk ((Window.medium outerMedium).replies wandering)).fill lastEntered).1 =
      .ok (some [[4], [4, 5], [], [5], [4, 5]]) := by
    cbv
  obtain ⟨x, reached, moved⟩ := reaches_last
  have same := chunk_reads_as_stream opened restless 0 reached moved (by decide +kernel) (fun _ _ => rfl)
    (Prod.ext run rfl)
  exact ⟨opened, run, same.2 (by decide)⟩

-- A chunk of odd size counts the filler as well: from its end, a move by one byte leads back to the end.
example : ((Window.read outerMedium (-1) >>= fun _ => Window.seek outerMedium (-1) .here >>= fun _ =>
      Window.read outerMedium (-1)).fill ({ head := ⟨[], 3, 4, 0⟩, offset := some 0 },
        ({ head := ⟨[], 4, 4, 0⟩, offset := some 0 }, { data := [1, 2, 3, 0] }))).1 = .ok [] := by
  cbv

end Container

end GameData
