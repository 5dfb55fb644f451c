import GameData.Container.Catalogue
import GameData.Proofs.Loading

/-!
Chains of chunks.

`Linked data start entries stop` says that the chunks from `start` on follow each other up to `stop`, each at the
distance that the head before it tells. A catalogue is such a chain.
-/
namespace GameData.Container

open Filling

def headAt (data : Bytes) (start : Nat) : Head := Head.decode (data.slice start 16)

def Head.after (h : Head) (start : Nat) : Nat := if 0 < h.skip then start + h.skip else start + h.size + 16

def entryAt (data : Bytes) (start : Nat) : Entry := ⟨headAt data start, start, start + 16⟩

/-- The chunks from one offset on follow each other up to another one, and their heads lie inside the file. -/
def Linked (data : Bytes) : Nat → List Entry → Nat → Prop
  | start, [], stop => start = stop
  | start, e :: rest, stop =>
    e = entryAt data start ∧ start + 16 ≤ data.length ∧ Linked data ((headAt data start).after start) rest stop

theorem Head.lt_after (h : Head) (start : Nat) : start < h.after start := by
  unfold after
  split <;> omega

theorem Head.after_eq_next (h : Head) (start : Nat) : ((h.after start : Nat) : Int) = start + 16 + h.next := by
  unfold after next
  split <;> omega

theorem headAt_size_lt (data : Bytes) (start : Nat) : (headAt data start).size < 4294967296 := by
  have small := Bytes.ofLE_lt ((data.slice start 16).slice 4 4)
  have short := Bytes.length_slice_le (data.slice start 16) 4 4
  exact Nat.lt_of_lt_of_le small (Nat.pow_le_pow_right (by decide) short)

theorem inside_of_length {data : Bytes} {start : Nat} (whole : (data.slice start 16).length = 16) :
    start + 16 ≤ data.length := by
  rw [Bytes.length_slice] at whole
  omega

namespace Linked

variable {data : Bytes} {start stop : Nat} {entries : List Entry}

theorem add_length_le (h : Linked data start entries stop) : start + entries.length ≤ stop := by
  induction entries generalizing start with
  | nil => exact Nat.le_of_eq h
  | cons e rest ih =>
      have further := ih h.2.2
      have later := (headAt data start).lt_after start
      rw [List.length_cons]
      omega

theorem start_le (h : Linked data start entries stop) : start ≤ stop :=
  Nat.le_trans (Nat.le_add_right _ _) h.add_length_le

theorem eq_entryAt (h : Linked data start entries stop) {e : Entry} (mem : e ∈ entries) :
    e = entryAt data e.start ∧ e.start + 16 ≤ data.length := by
  induction entries generalizing start with
  | nil => cases mem
  | cons first rest ih =>
      obtain ⟨rfl, inside, linked⟩ := h
      rcases List.mem_cons.mp mem with rfl | later
      · exact ⟨rfl, inside⟩
      · exact ih linked later

end Linked

namespace Catalogue

theorem linked_of_readEntries {data : Bytes} {start last : Nat} {entries : List Entry}
    (h : readEntries data start = .ok (entries, last)) : Linked data start entries last := by
  fun_induction readEntries data start generalizing entries last with
  | case1 start whole =>
      rename_i zero
      cases h
      have last : ¬ 0 < (headAt data start).skip := Nat.not_lt.mpr (Nat.le_of_eq zero)
      refine ⟨rfl, inside_of_length whole, ?_⟩
      rw [Head.after, if_neg last, Nat.add_right_comm]
      rfl
  | case2 start whole =>
      rename_i more ih
      obtain ⟨⟨others, stop⟩, read, h⟩ := bind_eq_ok.mp h
      cases h
      have skips : 0 < (headAt data start).skip := Nat.pos_of_ne_zero more
      refine ⟨rfl, inside_of_length whole, ?_⟩
      rw [Head.after, if_pos skips]
      exact ih read
  | case3 => cases h

theorem getLast?_of_readEntries {data : Bytes} {start last : Nat} {entries : List Entry}
    (h : readEntries data start = .ok (entries, last)) :
    entries.getLast?.map (fun e => e.dataAt + e.head.size) = some last := by
  fun_induction readEntries data start generalizing entries last with
  | case1 =>
      cases h
      rfl
  | case2 start whole =>
      rename_i ih
      obtain ⟨⟨others, stop⟩, read, h⟩ := bind_eq_ok.mp h
      cases h
      have ended := ih read
      cases others with
      | nil => cases ended
      | cons first rest => rwa [List.getLast?_cons_cons]
  | case3 => cases h

/-- A file that is accepted: the head of the container, and its chunks in a chain. -/
structure Accepted (stream : Stream) (c : Catalogue) (last : Nat) : Prop where
  headed : 20 ≤ stream.data.length
  mark : (headAt stream.data 0).fourcc = Bytes.ofText "ILFF"
  size : (headAt stream.data 0).size = stream.data.length
  align : (headAt stream.data 0).align = 4
  linked : Linked stream.data 20 c.entries last
  ended : c.entries.getLast?.map (fun e => e.dataAt + e.head.size) = some last
  stream : c.stream = { stream with position := max last stream.data.length }

theorem accepted_of_openStream {stream : Stream} {c : Catalogue} (h : openStream stream = .ok c) :
    ∃ last, Accepted stream c last := by
  obtain ⟨head, read, h⟩ := bind_eq_ok.mp h
  obtain ⟨headed, rfl⟩ := exactly_eq_ok.mp read
  -- The words of the head are the same in the twenty bytes read here and in the sixteen of a head.
  have same : ∀ off, off + 4 ≤ 16 →
      Bytes.slice (stream.data.take 20) off 4 = Bytes.slice (stream.data.slice 0 16) off 4 := by
    intro off inside
    rw [Bytes.slice_take (by omega), Bytes.slice, Bytes.slice, Bytes.slice, List.drop_zero, List.drop_take, List.take_take,
      Nat.min_eq_left (by omega)]
  simp only [bind_eq_ok, ensure_eq_ok, beq_iff_eq, Bytes.u32, same 0 (by decide), same 4 (by decide),
    same 8 (by decide), same 12 (by decide)] at h
  obtain ⟨_, mark, _, size, _, align, _, _, ⟨entries, last⟩, entriesRead, _, _, h⟩ := h
  cases h
  rw [List.length_take] at headed
  exact ⟨last, by omega, mark, size, align, linked_of_readEntries entriesRead,
    getLast?_of_readEntries entriesRead, rfl⟩

theorem find?_eq_some {c : Catalogue} {fourcc : Bytes} {e : Entry}
    (found : c.entries.find? (fun e => e.head.fourcc == fourcc) = some e) : c.find? fourcc false = some e := by
  simp only [find?, Bool.false_eq_true, if_false]
  rw [← List.head?_eq_getElem?, List.head?_filter, found]

theorem seek_fill {c : Catalogue} {fourcc : Bytes} {e : Entry} (isOpen : c.stream.closed = false)
    (found : c.find? fourcc false = some e) (near : e.dataAt ≤ c.stream.data.length) : (seek fourcc false).fill c =
      (.ok (some e), { c with stream := { c.stream with position := e.dataAt } }) := by
  have moved : (Stream.seek e.dataAt .start).fill c.stream = (.ok (), { c.stream with position := e.dataAt }) :=
    Stream.seek_fill_start _ isOpen (by omega)
  simp only [seek, fill, ExceptT.run_mk, StateT.run_bind, StateT.run_get, pure_bind, found]
  change (((Stream.seek e.dataAt .start).fill c.stream).1.map fun _ => some e,
    { c with stream := ((Stream.seek e.dataAt .start).fill c.stream).2 }) = _
  rw [moved]
  rfl

/-- The data of the first chunk with a mark are the bytes after its head. -/
theorem read_fill {stream : Stream} {c : Catalogue} {last : Nat} (accepted : Accepted stream c last)
    (isOpen : stream.closed = false) {fourcc : Bytes} {e : Entry}
    (found : c.entries.find? (fun e => e.head.fourcc == fourcc) = some e) :
    ((read fourcc false).fill c).1 = .ok (some (stream.data.slice e.dataAt e.head.size)) := by
  obtain ⟨entry, inside⟩ := accepted.linked.eq_entryAt (List.mem_of_find?_eq_some found)
  have small : e.head.size ≤ Bytes.readLimit := by
    rw [entry]
    exact Nat.le_trans (Nat.le_of_lt (headAt_size_lt _ _)) (by decide)
  have opened : c.stream.closed = false := by
    rw [accepted.stream]
    exact isOpen
  have data : c.stream.data = stream.data := by
    rw [accepted.stream]
  have near : e.dataAt ≤ c.stream.data.length := by
    rw [data, entry]
    exact inside
  rw [read, fill_bind_of_ok (seek_fill opened (find?_eq_some found) near)]
  change ((Stream.read e.head.size).fill { c.stream with position := e.dataAt }).1.map some = _
  rw [Stream.read_fill { c.stream with position := e.dataAt } opened small, Stream.rest, data]
  rfl

end Catalogue

end GameData.Container
