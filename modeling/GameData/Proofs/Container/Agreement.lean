import Mathlib
import GameData.Mesh.Block
import GameData.Proofs.Container.Frame

/-!
Three readers of one container.

A catalogue follows the stored distances by absolute offsets, a walk seeks through the window of the container, and
a mesh file is read block by block. Main statement: on an accepted file whose last chunk ends it, the three visit the
same chunks, and the first two give the same data.
-/
namespace GameData.Mesh

open Filling Container

/-- A chunk that a mesh file may hold: its mark is known, and a body that is looked into can be read. -/
def Legible (data : Bytes) (e : Entry) : Prop :=
  ∃ k, Kind.ofFourcc? e.head.fourcc = some k ∧
    (k = .hsem ∨ k = .sems → ∃ b, ((Block.readBody k e.head).fill { data := data, position := e.dataAt }).1 = .ok b)

theorem Block.readExactly_fill {data : Bytes} {p n : Nat} (small : n ≤ Bytes.readLimit)
    (high : p + n ≤ data.length) :
    (readExactly n).fill { data := data, position := p } = (.ok (data.slice p n), { data := data, position := p + n }) := by
  have length : (data.slice p n).length = n := Bytes.length_slice_of_le high
  have read : (Stream.read n).fill { data := data, position := p } =
      (.ok (data.slice p n), { data := data, position := p + (data.slice p n).length }) :=
    Stream.read_fill _ rfl small
  rw [length] at read
  rw [readExactly, fill_bind_of_ok read, fill_attempt, exactly_eq_ok.mpr ⟨length, rfl⟩]

theorem Block.readHead_fill {data : Bytes} {p : Nat} (high : p + 16 ≤ data.length) :
    readHead.fill { data := data, position := p } = (.ok (headAt data p), { data := data, position := p + 16 }) := by
  rw [readHead, fill_bind_of_ok (readExactly_fill (by decide) high)]
  rfl

theorem Block.readBlock_fill {data : Bytes} {p : Nat} (high : p + 16 ≤ data.length)
    (legible : Legible data (entryAt data p)) :
    ∃ block, (readBlock.fill { data := data, position := p }).1 = .ok block ∧ block.head = headAt data p := by
  obtain ⟨k, known, parses⟩ := legible
  have known : Kind.ofFourcc? (headAt data p).fourcc = some k := known
  rw [readBlock, fill_bind_of_ok (readHead_fill high)]
  simp only [known]
  cases k
  case hsem =>
    obtain ⟨body, parsed⟩ := parses (.inl rfl)
    exact ⟨_, congrArg Prod.fst (fill_bind_of_fst parsed _), rfl⟩
  case sems =>
    obtain ⟨body, parsed⟩ := parses (.inr rfl)
    exact ⟨_, congrArg Prod.fst (fill_bind_of_fst parsed _), rfl⟩
  all_goals exact ⟨_, rfl, rfl⟩

theorem BlockFile.readBlocks_of_linked {data : Bytes} {p : Nat} {entries : List Entry}
    (linked : Linked data p entries data.length) (legible : ∀ e ∈ entries, Legible data e) :
    ∃ blocks, readBlocks data p = .ok blocks ∧ blocks.map Block.head = entries.map Entry.head := by
  induction entries generalizing p with
  | nil =>
      have ended : p = data.length := linked
      refine ⟨[], ?_, rfl⟩
      rw [readBlocks, if_neg (by omega)]
  | cons first rest ih =>
      obtain ⟨rfl, high, linked⟩ := linked
      obtain ⟨block, read, head⟩ := Block.readBlock_fill high (legible _ List.mem_cons_self)
      obtain ⟨blocks, more, heads⟩ := ih linked fun e mem => legible e (List.mem_cons_of_mem _ mem)
      refine ⟨block :: blocks, ?_, by rw [List.map_cons, List.map_cons, heads, head]; rfl⟩
      have next : following block.head p = (headAt data p).after p := by
        rw [head]
        rfl
      rw [readBlocks, if_pos (by omega)]
      simp only [read]
      rw [ok_bind, next, more, ok_bind]

/-- A container whose last chunk ends the file is read as a mesh when all its chunks can be. -/
theorem BlockFile.parse_of_accepted {data : Bytes} {kind : StreamKind} {c : Catalogue}
    (accepted : Catalogue.Accepted { data := data, kind := kind } c data.length)
    (legible : ∀ e ∈ c.entries, Legible data e) :
    ∃ f, parse data = .ok f ∧ f.blocks.map Block.head = c.entries.map Entry.head := by
  have headed : 20 ≤ data.length := accepted.headed
  obtain ⟨blocks, read, heads⟩ := readBlocks_of_linked accepted.linked legible
  have head : Block.readHead.fill { data := data } = (.ok (headAt data 0), { data := data, position := 16 }) :=
    Block.readHead_fill (by omega)
  have type : (Block.readExactly 4).fill { data := data, position := 16 } =
      (.ok (data.slice 16 4), { data := data, position := 20 }) := Block.readExactly_fill (by decide) headed
  refine ⟨⟨headAt data 0, data.slice 16 4, blocks⟩, ?_, heads⟩
  simp only [parse, head, type]
  rw [ok_bind, ok_bind, read, ok_bind]

end GameData.Mesh

namespace GameData.Container

open Filling

theorem Head.after_add (h : Head) (a b : Nat) : h.after (a + b) = a + h.after b := by
  unfold after
  split <;> omega

/-- The part of a file that a limit does not cut. -/
theorem slice_min {data : Bytes} {p limit : Nat} (enough : data.length ≤ p + limit) (n : Nat) :
    data.slice p (min n limit) = data.slice p n := by
  rw [Bytes.slice, Bytes.slice, List.take_eq_take_iff, List.length_drop]
  omega

namespace Walk

def readFirst (fourcc : Bytes) : Nat → Filling Walk (Option Bytes)
  | 0 => throw .tooDeep
  | fuel + 1 => do
    match ← advance with
    | none => pure none
    | some h =>
      if h.fourcc == fourcc then do
        let b ← readChunk (-1)
        pure (some b)
      else readFirst fourcc fuel

def firstData (fourcc : Bytes) (stream : Stream) : Except Fault (Option Bytes) := do
  let walk ← openFile stream
  ((readFirst fourcc (walk.outer.2.data.length + 2)).fill walk).1

end Walk

namespace Frame

section Linked

variable {F : Frame} (spans : F.file.data.length ≤ F.container.head.size) {q : Nat} {entries : List Entry}
  (linked : Linked F.file.data (F.base + q) entries F.file.data.length)
include spans linked

/-- A chain of chunks up to the end of the file is the one that a walk follows. -/
theorem chain_of_linked : F.Chain q (entries.map Entry.head) (.ok ()) := by
  induction entries generalizing q with
  | nil =>
      have ended : F.base + q = F.file.data.length := linked
      exact .stop fun holds => absurd holds.2 (by omega)
  | cons first rest ih =>
      obtain ⟨rfl, high, linked⟩ := linked
      rw [Head.after_add] at linked
      have before := linked.start_le
      exact .more ⟨by omega, high⟩ (Nat.le_trans (Nat.le_of_add_left_le before) spans) (ih linked)

/-- A walk over a chain finds the first chunk with a mark and reads the bytes after its head. -/
theorem readFirst_fill {w : Walk} (ahead : F.Ahead w q) {fuel : Nat} (enough : entries.length < fuel) {fourcc : Bytes}
    {e : Entry} (found : entries.find? (fun e => e.head.fourcc == fourcc) = some e) :
    ((Walk.readFirst fourcc fuel).fill w).1 = .ok (some (F.file.data.slice e.dataAt e.head.size)) := by
  induction entries generalizing q fuel w with
  | nil => cases found
  | cons first rest ih =>
      obtain ⟨fuel, rfl⟩ : ∃ n, fuel = n + 1 := ⟨fuel - 1, by omega⟩
      obtain ⟨rfl, high, linked⟩ := linked
      rw [Head.after_add] at linked
      have before := linked.start_le
      obtain ⟨v, step, entered⟩ := ahead.advance ⟨by omega, high⟩
      rw [Walk.readFirst, fill_bind_of_ok step]
      rw [List.find?_cons] at found
      cases hit : (F.headFrom q).fourcc == fourcc with
      | true =>
          have first : entryAt F.file.data (F.base + q) = e := by
            rw [show (entryAt F.file.data (F.base + q)).head = F.headFrom q from rfl, hit] at found
            exact Option.some.inj found
          obtain ⟨u, read, -⟩ := entered.holds.readChunk F.mounted entered.small (-1)
          rw [slice_min (by omega)] at read
          simp only [hit, if_true]
          rw [fill_bind_of_ok read, ← first]
          rfl
      | false =>
          rw [show (entryAt F.file.data (F.base + q)).head = F.headFrom q from rfl, hit] at found
          simp only [hit, Bool.false_eq_true, if_false]
          exact ih linked (On.ahead entered.level (Nat.le_trans (Nat.le_of_add_left_le before) spans))
            (Nat.lt_of_succ_lt_succ enough) found

end Linked

end Frame

namespace Catalogue.Accepted

variable {stream : Stream} {c : Catalogue} {last : Nat} (accepted : Accepted stream c last)
include accepted

theorem openFile_ok (isOpen : stream.closed = false) (front : stream.position = 0) :
    ∃ walk, Walk.openFile stream = .ok walk := by
  have headed := accepted.headed
  have opened := openOn_of_inside isOpen (show stream.position + 16 ≤ stream.data.length by omega)
  obtain ⟨b, k, -, -, read, -⟩ := Walk.readType_of_openOn opened
  have head : (containerAt stream).head = headAt stream.data 0 := by rw [containerAt, front]
  generalize mount _ _ _ _ = outer at read
  refine ⟨{ outer := outer, type := b }, ?_⟩
  simp only [Walk.openFile, opened, read, head, accepted.mark, accepted.align, ne_eq, not_true, if_false]

/-- A walk over an accepted file starts at the first chunk of its chain. -/
theorem frame (isOpen : stream.closed = false) (front : stream.position = 0) (placed : stream.kind ≠ .sequential) :
    ∃ (F : Frame) (walk : Walk), Walk.openFile stream = .ok walk ∧ F.file.data = stream.data ∧
      walk.outer.2.data = F.file.data ∧ F.file.data.length ≤ F.container.head.size ∧ F.base = 16 ∧ F.Ahead walk 4 := by
  have headed := accepted.headed
  have size := accepted.size
  obtain ⟨walk, opened⟩ := accepted.openFile_ok isOpen front
  obtain ⟨F, container, base, file, data, ahead, type⟩ :=
    Walk.frame_of_openFile placed (.inr (by rw [front, size]; omega)) opened
  rw [front] at container base
  have length : walk.type.length = 4 := by
    rw [type, container, base, size, List.length_take, List.length_take, List.length_drop]
    omega
  rw [length] at ahead
  exact ⟨F, walk, opened, file, data, by rw [file, container, size], base, ahead⟩

end Catalogue.Accepted

/-- On a file that the catalogue accepts and whose last chunk ends it, a walk meets the same heads and ends without a
fault, both give the same data for each mark, and the blocks of the mesh have the same heads if each is legible. -/
theorem readers_agree {data : Bytes} {kind : StreamKind} {c : Catalogue} (placed : kind ≠ .sequential)
    (opened : Catalogue.openStream { data := data, kind := kind } = .ok c)
    (ended : c.entries.getLast?.map (fun e => e.dataAt + e.head.size) = some data.length) :
    Walk.heads { data := data, kind := kind } = (c.entries.map Entry.head, .ok ()) ∧
    (∀ e ∈ c.entries, ∃ first, c.entries.find? (fun f => f.head.fourcc == e.head.fourcc) = some first ∧
      Walk.firstData e.head.fourcc { data := data, kind := kind } =
        .ok (some (data.slice first.dataAt first.head.size)) ∧
      ((Catalogue.read e.head.fourcc false).fill c).1 = .ok (some (data.slice first.dataAt first.head.size))) ∧
    ((∀ e ∈ c.entries, Mesh.Legible data e) →
      ∃ f, Mesh.BlockFile.parse data = .ok f ∧ f.blocks.map Mesh.Block.head = c.entries.map Entry.head) := by
  obtain ⟨last, accepted⟩ := Catalogue.accepted_of_openStream opened
  have atEnd : last = data.length := by
    rw [accepted.ended] at ended
    exact Option.some.inj ended
  subst atEnd
  obtain ⟨F, walk, walking, file, read, spans, base, ahead⟩ := accepted.frame rfl rfl placed
  have file : F.file.data = data := file
  have linked : Linked F.file.data (F.base + 4) c.entries F.file.data.length := by
    rw [base, file]
    exact accepted.linked
  refine ⟨(Frame.chain_of_linked spans linked).heads walking ahead read, ?_,
    Mesh.BlockFile.parse_of_accepted accepted⟩
  intro e mem
  have present : (c.entries.find? fun f => f.head.fourcc == e.head.fourcc).isSome :=
    List.find?_isSome.mpr ⟨e, mem, beq_self_eq_true _⟩
  obtain ⟨first, found⟩ := Option.isSome_iff_exists.mp present
  have count := linked.add_length_le
  have enough : c.entries.length < walk.outer.2.data.length + 2 := by
    rw [read]
    omega
  have given := Frame.readFirst_fill spans linked ahead enough found
  rw [file] at given
  refine ⟨first, found, ?_, Catalogue.read_fill accepted rfl found⟩
  rw [Walk.firstData, walking]
  exact given

/-- A file of three chunks. The second tells an odd size, a mark in place of its alignment and the distance eight, so
that the head of the third starts inside its own. -/
def overlapSample : Bytes :=
  Bytes.ofText "ILFF" ++ [96, 0, 0, 0, 4, 0, 0, 0, 0, 0, 0, 0] ++ Bytes.ofText "OCEM" ++
  Bytes.ofText "SEMS" ++ [28, 0, 0, 0, 4, 0, 0, 0, 44, 0, 0, 0] ++ Bytes.zeros 28 ++
  Bytes.ofText "REIH" ++ [5, 0, 0, 0] ++ Bytes.ofText "REIH" ++ [8, 0, 0, 0, 4, 0, 0, 0, 0, 0, 0, 0] ++
  [1, 2, 3, 4, 5, 6, 7, 8]

def overlapCatalogue : Catalogue where
  signature := Bytes.ofText "ILFF"
  size := 96
  align := 4
  skip := 0
  format := Bytes.ofText "OCEM"
  entries := [⟨⟨Bytes.ofText "SEMS", 28, 4, 44⟩, 20, 36⟩, ⟨⟨Bytes.ofText "REIH", 5, 1212761426, 8⟩, 64, 80⟩,
    ⟨⟨Bytes.ofText "REIH", 8, 4, 0⟩, 72, 88⟩]
  stream := { data := overlapSample, position := 96, kind := .disk }

theorem opened_overlapSample :
    Catalogue.openStream { data := overlapSample, kind := .disk } = .ok overlapCatalogue := by
  cbv

theorem legible_overlapSample : ∀ e ∈ overlapCatalogue.entries, Mesh.Legible overlapSample e := by
  intro e mem
  simp only [overlapCatalogue, List.mem_cons, List.not_mem_nil, or_false] at mem
  rcases mem with rfl | rfl | rfl
  · exact ⟨.sems, by decide +kernel, fun _ => ⟨.table .sems [.list (List.replicate 7 (.int 0))], by cbv⟩⟩
  · exact ⟨.reih, by decide +kernel, fun looked => absurd looked (by decide)⟩
  · exact ⟨.reih, by decide +kernel, fun looked => absurd looked (by decide)⟩

theorem readers_agree_overlapSample :
    Catalogue.openStream { data := overlapSample, kind := .disk } = .ok overlapCatalogue ∧
    (∀ e ∈ overlapCatalogue.entries, Mesh.Legible overlapSample e) ∧
    Walk.heads { data := overlapSample, kind := .disk } = (overlapCatalogue.entries.map Entry.head, .ok ()) ∧
    (∀ e ∈ overlapCatalogue.entries,
      ∃ first, overlapCatalogue.entries.find? (fun f => f.head.fourcc == e.head.fourcc) = some first ∧
        Walk.firstData e.head.fourcc { data := overlapSample, kind := .disk } =
          .ok (some (overlapSample.slice first.dataAt first.head.size)) ∧
        ((Catalogue.read e.head.fourcc false).fill overlapCatalogue).1 =
          .ok (some (overlapSample.slice first.dataAt first.head.size))) ∧
    ∃ f, Mesh.BlockFile.parse overlapSample = .ok f ∧
      f.blocks.map Mesh.Block.head = overlapCatalogue.entries.map Entry.head := by
  obtain ⟨heads, bytes, blocks⟩ := readers_agree (by decide) opened_overlapSample (by decide +kernel)
  exact ⟨opened_overlapSample, legible_overlapSample, heads, bytes, blocks legible_overlapSample⟩

end GameData.Container
