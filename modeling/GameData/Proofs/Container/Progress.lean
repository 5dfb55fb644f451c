import GameData.Mesh.Block
import GameData.Proofs.Container.Agreement

/-!
Progress of the readers of a container.

Each of the three loops is written once more with a note of the offsets at which it reads a head; its outcome stays the
same. Main statement: on every stream these offsets grow from head to head, whatever the heads tell, so that no loop
reads more heads than the file has bytes, but for one, and the walk never runs out of its bound.
-/
namespace GameData

open Filling

/-- Offsets that grow, from a lower bound on. All but the last lie in the file. -/
inductive Ascends (data : Bytes) : Nat → List Nat → Prop
  | stop {low : Nat} : Ascends data low []
  | last {low p : Nat} (above : low ≤ p) : Ascends data low [p]
  | more {low p : Nat} {ps : List Nat} (above : low ≤ p) (inside : p < data.length) (rest : Ascends data (p + 1) ps) :
      Ascends data low (p :: ps)

namespace Ascends

variable {data : Bytes} {low : Nat} {ps : List Nat}

theorem above (ascends : Ascends data low ps) : ∀ p ∈ ps, low ≤ p := by
  induction ascends with
  | stop =>
      intro p mem
      cases mem
  | last above =>
      intro p mem
      rw [List.mem_singleton.mp mem]
      exact above
  | more above _ _ ih =>
      intro p mem
      rcases List.mem_cons.mp mem with rfl | mem
      · exact above
      · have := ih p mem
        omega

theorem pairwise (ascends : Ascends data low ps) : ps.Pairwise (· < ·) := by
  induction ascends with
  | stop => exact .nil
  | last => exact List.pairwise_singleton _ _
  | more _ _ rest ih => exact .cons rest.above ih

theorem length_le (ascends : Ascends data low ps) : ps.length ≤ data.length - low + 1 := by
  induction ascends with
  | stop => exact Nat.zero_le _
  | last => exact Nat.le_add_left 1 _
  | more above inside _ ih =>
      rw [List.length_cons]
      omega

end Ascends

/-- What a reader notes on a file: the offsets at which it reads heads grow strictly, and there is at most one more of
them than the file has bytes. -/
structure Progress (data : Bytes) (offsets : List Nat) : Prop where
  increasing : offsets.Pairwise (· < ·)
  few : offsets.length ≤ data.length + 1

theorem Ascends.progress {data : Bytes} {low : Nat} {offsets : List Nat} (ascends : Ascends data low offsets) :
    Progress data offsets :=
  ⟨ascends.pairwise, Nat.le_trans ascends.length_le (by omega)⟩

namespace Container

namespace Walk

/-- The offsets at which a walk tries to read heads, the heads that it has read, and how it ends. -/
def traceFrom : Nat → Walk → List Nat × (List Head × Except Fault Unit)
  | 0, _ => ([], [], .error .tooDeep)
  | fuel + 1, w =>
    match leave.fill w with
    | (.error f, _) => ([], [], .error f)
    | (.ok false, _) => ([], [], .ok ())
    | (.ok true, v) =>
      match openNext.fill v with
      | (.error f, _) => ([v.outer.2.position], [], .error f)
      | (.ok none, _) => ([v.outer.2.position], [], .ok ())
      | (.ok (some h), u) =>
        let (offsets, heads, outcome) := traceFrom fuel u
        (v.outer.2.position :: offsets, h :: heads, outcome)

def trace (stream : Stream) : List Nat × (List Head × Except Fault Unit) :=
  match openFile stream with
  | .error f => ([], [], .error f)
  | .ok walk => traceFrom (walk.outer.2.data.length + 2) walk

/-- The offsets are a note beside the walk: it meets the same heads and ends in the same way. -/
theorem forEachFrom_eq_traceFrom (fuel : Nat) (w : Walk) (hs : List Head) :
    ∃ v, (forEachFrom (fun h => modify fun (hs, w) => (hs ++ [h], w)) fuel).fill (hs, w) =
      ((traceFrom fuel w).2.2, (hs ++ (traceFrom fuel w).2.1, v)) := by
  induction fuel generalizing w hs with
  | zero => exact ⟨w, by rw [traceFrom, List.append_nil]; rfl⟩
  | succ fuel ih =>
      have step := advance_fill_leave w
      rw [forEachFrom]
      rcases left : leave.fill w with ⟨f | going, v⟩
      · rw [fill_bind_of_error left] at step
        refine ⟨v, ?_⟩
        rw [fill_bind_of_error (onSecond_fill step)]
        simp only [traceFrom, left, List.append_nil]
      · rw [fill_bind_of_ok left] at step
        cases going with
        | false =>
            refine ⟨v, ?_⟩
            rw [fill_bind_of_ok (onSecond_fill step)]
            simp only [traceFrom, left, List.append_nil]
            rfl
        | true =>
            rw [if_pos rfl] at step
            rcases opened : openNext.fill v with ⟨f | _ | h, u⟩
            · rw [opened] at step
              refine ⟨u, ?_⟩
              rw [fill_bind_of_error (onSecond_fill step)]
              simp only [traceFrom, left, opened, List.append_nil]
            · rw [opened] at step
              refine ⟨u, ?_⟩
              rw [fill_bind_of_ok (onSecond_fill step)]
              simp only [traceFrom, left, opened, List.append_nil]
              rfl
            · rw [opened] at step
              obtain ⟨x, run⟩ := ih u (hs ++ [h])
              refine ⟨x, ?_⟩
              rw [fill_bind_of_ok (onSecond_fill step)]
              simp only [traceFrom, left, opened]
              rw [List.append_assoc, List.singleton_append] at run
              exact run

theorem trace_snd (stream : Stream) : (trace stream).2 = heads stream := by
  unfold trace heads
  cases opened : openFile stream with
  | error f => rfl
  | ok walk =>
      obtain ⟨v, run⟩ := forEachFrom_eq_traceFrom (walk.outer.2.data.length + 2) walk []
      have same : (forEach fun h => modify fun ((hs, w) : List Head × Walk) => (hs ++ [h], w)).fill ([], walk) =
        (forEachFrom (fun h => modify fun (hs, w) => (hs ++ [h], w)) (walk.outer.2.data.length + 2)).fill ([], walk) := rfl
      simp only [same, run, List.nil_append]

/-- The run: the offsets ascend, the heads are read at them, and a bound above the number of bytes is never reached. -/
theorem Onward.traceFrom {c : Window} {s : Stream} {low : Nat} {w : Walk} (mounted : Mounted c s)
    (start : Onward c s low w) (fuel : Nat) :
    Ascends s.data low (Walk.traceFrom fuel w).1 ∧
    (Walk.traceFrom fuel w).2.1 <+: (Walk.traceFrom fuel w).1.map (headAt s.data) ∧
    (s.data.length - low + 1 < fuel → (Walk.traceFrom fuel w).2.2 ≠ .error .tooDeep) := by
  induction fuel generalizing low w with
  | zero => exact ⟨.stop, List.nil_prefix, fun enough => absurd enough (Nat.not_lt_zero _)⟩
  | succ fuel ih =>
      rcases start with ⟨u, failed⟩ | ⟨q, p, v, left, ready, above⟩
      · simp only [Walk.traceFrom, failed]
        exact ⟨.stop, List.nil_prefix, fun _ h => by cases h⟩
      · have place : v.outer.2.position = p := by
          rw [ready.outer]
          rfl
        rcases ready.openNext mounted with ⟨u, ended⟩ | ⟨k, u, whole, inside, opened, entered⟩
        · simp only [Walk.traceFrom, left, ended, place]
          exact ⟨.last above, List.nil_prefix, fun _ h => by cases h⟩
        · obtain ⟨ascends, read, ends⟩ := ih (entered.onward mounted whole)
          simp only [Walk.traceFrom, left, opened, place]
          refine ⟨.more above (by omega) ascends, ?_, fun enough => ends (by omega)⟩
          exact List.cons_prefix_cons.mpr ⟨rfl, read⟩

end Walk

namespace Catalogue

def traceEntries (data : Bytes) (start : Nat) : List Nat × Except Fault (List Entry × Nat) :=
  if _h : (data.slice start 16).length = 16 then
    if _s : (headAt data start).skip = 0 then
      ([start], .ok ([entryAt data start], start + 16 + (headAt data start).size))
    else
      let (offsets, outcome) := traceEntries data (start + (headAt data start).skip)
      (start :: offsets, do
        let (more, last) ← outcome
        .ok (entryAt data start :: more, last))
  else ([start], .error (.record (.size 16)))
termination_by data.length - start
decreasing_by
  have := inside_of_length _h
  omega

theorem traceEntries_snd (data : Bytes) (start : Nat) : (traceEntries data start).2 = readEntries data start := by
  fun_induction readEntries data start with
  | case1 start whole _ _ zero =>
      have zero : (headAt data start).skip = 0 := zero
      rw [traceEntries, dif_pos whole, dif_pos zero]
      rfl
  | case2 start whole _ _ more ih =>
      have more : ¬ (headAt data start).skip = 0 := more
      have ih : (traceEntries data (start + (headAt data start).skip)).2 = _ := ih
      rw [traceEntries, dif_pos whole, dif_neg more]
      change ((traceEntries data (start + (headAt data start).skip)).2 >>= _) = _
      rw [ih]
      rfl
  | case3 start short => rw [traceEntries, dif_neg short]

/-- Each distance leads to a later head, and the entries are those at the offsets. -/
theorem traceEntries_ascends {data : Bytes} {low start : Nat} (above : low ≤ start) :
    Ascends data low (traceEntries data start).1 ∧
    ∀ entries last, (traceEntries data start).2 = .ok (entries, last) →
      entries = (traceEntries data start).1.map (entryAt data) := by
  fun_induction traceEntries data start generalizing low with
  | case1 start whole zero =>
      refine ⟨.last above, fun entries last read => ?_⟩
      cases read
      rfl
  | case2 start whole more offsets outcome rest ih =>
      have inside := inside_of_length whole
      obtain ⟨ascends, listed⟩ := ih (show start + 1 ≤ start + (headAt data start).skip by omega)
      rw [rest] at ascends listed
      refine ⟨.more above (by omega) ascends, fun entries last read => ?_⟩
      obtain ⟨⟨others, stop⟩, read, joined⟩ := bind_eq_ok.mp read
      cases joined
      rw [listed others last read]
      rfl
  | case3 start short =>
      refine ⟨.last above, fun entries last read => ?_⟩
      cases read

def heading (stream : Stream) : Except Fault Bytes := do
  let h ← Bytes.exactly 20 (stream.data.take 20)
  ensure (h.slice 0 4 == Bytes.ofText "ILFF") (.check .containerMark)
  ensure (h.u32 4 == stream.data.length) (.check .containerSize)
  ensure (h.u32 8 == 4) (.check .containerAlign)
  ensure (h.u32 12 == 0) (.check .containerSkip)
  .ok h

def closing (stream : Stream) (h : Bytes) (entries : List Entry) (last : Nat) : Except Fault Catalogue := do
  ensure (stream.data.drop last).isEmpty (.check .containerEnd)
  .ok ⟨h.slice 0 4, h.u32 4, h.u32 8, h.u32 12, h.slice 16 4, entries,
    { stream with position := max last stream.data.length }⟩

def trace (stream : Stream) : List Nat × Except Fault Catalogue :=
  match heading stream with
  | .error f => ([], .error f)
  | .ok h =>
    let (offsets, outcome) := traceEntries stream.data 20
    (offsets, do
      let (entries, last) ← outcome
      closing stream h entries last)

theorem trace_snd (stream : Stream) : (trace stream).2 = openStream stream := by
  have split : openStream stream = heading stream >>= fun h =>
      readEntries stream.data 20 >>= fun found => closing stream h found.1 found.2 := by
    simp only [openStream, heading, closing, bind_assoc, ok_bind]
  rw [split, trace, ← traceEntries_snd]
  cases heading stream with
  | error f => rfl
  | ok h => rfl

theorem trace_ascends (stream : Stream) : Ascends stream.data 0 (trace stream).1 ∧
    ∀ c, (trace stream).2 = .ok c → c.entries = (trace stream).1.map (entryAt stream.data) := by
  unfold trace
  cases heading stream with
  | error f =>
      refine ⟨.stop, fun c read => ?_⟩
      cases read
  | ok h =>
      obtain ⟨ascends, listed⟩ : Ascends stream.data 0 (traceEntries stream.data 20).1 ∧ _ :=
        traceEntries_ascends (Nat.zero_le 20)
      refine ⟨ascends, fun c read => ?_⟩
      obtain ⟨⟨entries, last⟩, listing, closed⟩ := bind_eq_ok.mp read
      obtain ⟨_, _, closed⟩ := bind_eq_ok.mp closed
      cases closed
      exact listed entries last listing

end Catalogue

end Container

namespace Mesh

open Container

namespace Block

theorem eq_headAt_of_readHead {data : Bytes} {start : Nat} {h : Head} {t : Stream}
    (read : readHead.fill { data := data, position := start } = (.ok h, t)) : h = headAt data start := by
  obtain ⟨b, s, taken, decoded⟩ := fill_bind_eq_ok.mp read
  cases decoded
  obtain ⟨whole, r, given, exact⟩ := fill_bind_eq_ok.mp taken
  have front : (Stream.read 16).fill { data := data, position := start } =
      (.ok (data.slice start 16), { data := data, position := start + (data.slice start 16).length }) :=
    Stream.read_fill _ rfl (by decide)
  cases front.symm.trans given
  rw [fill_attempt] at exact
  obtain ⟨-, rfl⟩ := exactly_eq_ok.mp (congrArg Prod.fst exact)
  rfl

/-- A block that can be read has the head at its offset. -/
theorem head_of_readBlock {data : Bytes} {start : Nat} {block : Block}
    (read : (readBlock.fill { data := data, position := start }).1 = .ok block) : block.head = headAt data start := by
  obtain ⟨h, r, headed, body⟩ := fill_bind_eq_ok.mp (Prod.ext read rfl)
  rw [← eq_headAt_of_readHead headed]
  cases known : Kind.ofFourcc? h.fourcc with
  | none =>
      simp only [known] at body
      cases body
  | some k =>
      simp only [known] at body
      cases k
      case hsem =>
        obtain ⟨b, t, _, made⟩ := fill_bind_eq_ok.mp body
        cases made
        rfl
      case sems =>
        obtain ⟨b, t, _, made⟩ := fill_bind_eq_ok.mp body
        cases made
        rfl
      all_goals
        cases body
        rfl

end Block

namespace BlockFile

def traceBlocks (data : Bytes) (start : Nat) : List Nat × Except Fault (List Block) :=
  if start < data.length then
    match (Block.readBlock.fill { data := data, position := start }).1 with
    | .error f => ([start], .error f)
    | .ok block =>
      let (offsets, outcome) := traceBlocks data (following block.head start)
      (start :: offsets, do
        let more ← outcome
        .ok (block :: more))
  else ([], .ok [])
termination_by data.length - start
decreasing_by
  have := lt_following block.head start
  omega

theorem traceBlocks_snd (data : Bytes) (start : Nat) : (traceBlocks data start).2 = readBlocks data start := by
  fun_induction traceBlocks data start with
  | case1 start inside f failed =>
      rw [readBlocks, if_pos inside]
      simp only [failed]
      rfl
  | case2 start inside block read offsets outcome rest ih =>
      rw [rest] at ih
      rw [readBlocks, if_pos inside]
      simp only [read]
      rw [ok_bind, ← ih]
  | case3 start ended => rw [readBlocks, if_neg ended]

theorem traceBlocks_ascends {data : Bytes} {low start : Nat} (above : low ≤ start) :
    Ascends data low (traceBlocks data start).1 ∧
    ∀ blocks, (traceBlocks data start).2 = .ok blocks →
      blocks.map Block.head = (traceBlocks data start).1.map (headAt data) := by
  fun_induction traceBlocks data start generalizing low with
  | case1 start inside f failed =>
      refine ⟨.last above, fun blocks read => ?_⟩
      cases read
  | case2 start inside block read offsets outcome rest ih =>
      have later := lt_following block.head start
      obtain ⟨ascends, listed⟩ := ih (Nat.succ_le_of_lt later)
      rw [rest] at ascends listed
      refine ⟨.more above inside ascends, fun blocks joined => ?_⟩
      obtain ⟨others, more, joined⟩ := bind_eq_ok.mp joined
      cases joined
      rw [List.map_cons, List.map_cons, listed others more, Block.head_of_readBlock read]
  | case3 start ended =>
      refine ⟨.stop, fun blocks read => ?_⟩
      cases read
      rfl

def heading (data : Bytes) : Except Fault (Head × Bytes × Nat) := do
  let (r, s) := Block.readHead.fill { data := data }
  let head ← r
  let (r, s) := (Block.readExactly 4).fill s
  let type ← r
  .ok (head, type, s.position)

def trace (data : Bytes) : List Nat × Except Fault BlockFile :=
  match heading data with
  | .error f => ([], .error f)
  | .ok (head, type, start) =>
    let (offsets, outcome) := traceBlocks data start
    (offsets, do
      let blocks ← outcome
      .ok ⟨head, type, blocks⟩)

theorem trace_snd (data : Bytes) : (trace data).2 = parse data := by
  have split : parse data = heading data >>= fun front =>
      readBlocks data front.2.2 >>= fun blocks => .ok ⟨front.1, front.2.1, blocks⟩ := by
    simp only [parse, heading, bind_assoc, ok_bind]
  rw [split, trace]
  cases heading data with
  | error f => rfl
  | ok front =>
      rw [ok_bind, ← traceBlocks_snd]

theorem trace_ascends (data : Bytes) : Ascends data 0 (trace data).1 ∧
    ∀ f, (trace data).2 = .ok f → f.blocks.map Block.head = (trace data).1.map (headAt data) := by
  unfold trace
  cases heading data with
  | error f =>
      refine ⟨.stop, fun f read => ?_⟩
      cases read
  | ok front =>
      obtain ⟨ascends, listed⟩ : Ascends data 0 (traceBlocks data front.2.2).1 ∧ _ :=
        traceBlocks_ascends (Nat.zero_le _)
      refine ⟨ascends, fun f read => ?_⟩
      obtain ⟨blocks, listing, joined⟩ := bind_eq_ok.mp read
      cases joined
      exact listed blocks listing

end BlockFile

end Mesh

namespace Container

theorem Window.openOn_stream_ne_tooDeep (stream : Stream) :
    ((openOn Stream.medium).fill stream).1 ≠ .error .tooDeep := by
  intro deep
  cases closed : stream.closed with
  | true =>
      rw [openOn_of_closed closed, Stream.readFault] at deep
      cases kind : stream.kind <;> rw [kind] at deep <;> cases deep
  | false =>
      by_cases whole : stream.position + 16 ≤ stream.data.length
      · rw [openOn_of_inside closed whole] at deep
        cases deep
      · rw [openOn_of_short closed (Nat.not_le.mp whole)] at deep
        cases deep

theorem Walk.openFile_ne_tooDeep (stream : Stream) : openFile stream ≠ .error .tooDeep := by
  intro deep
  unfold openFile at deep
  rcases headed : (Window.openOn Stream.medium).fill stream with ⟨f | window, t⟩
  · rw [headed] at deep
    cases deep
    exact Window.openOn_stream_ne_tooDeep stream (congrArg Prod.fst headed)
  · obtain ⟨b, k, -, -, read, -⟩ := readType_of_openOn headed
    simp only [headed, read] at deep
    split at deep
    · cases deep
    · split at deep
      · cases deep
      · cases deep

theorem Walk.trace_ascends (stream : Stream) : Ascends stream.data 0 (trace stream).1 ∧
    (trace stream).2.1 <+: (trace stream).1.map (headAt stream.data) ∧ (trace stream).2.2 ≠ .error .tooDeep := by
  unfold trace
  cases opened : openFile stream with
  | error f =>
      refine ⟨.stop, List.nil_prefix, fun deep => ?_⟩
      cases deep
      exact openFile_ne_tooDeep stream opened
  | ok walk =>
      obtain ⟨c, s, q, p, mounted, data, ready, fresh⟩ := ready_of_openFile opened
      have size : walk.outer.2.data = stream.data := by
        rw [ready.outer, ← data]
        rfl
      obtain ⟨ascends, read, ends⟩ := (ready.onward fresh).traceFrom mounted (walk.outer.2.data.length + 2)
      rw [data] at ascends read ends
      exact ⟨ascends, read, ends (by rw [size]; omega)⟩

/-- Every reader of a container ends on every stream: a walk that does nothing with its chunks, a catalogue and a mesh
file. The offsets at which heads are read only grow, whatever sizes and distances the heads tell, and what the readers
give are the heads at these offsets. -/
theorem readers_progress (stream : Stream) :
    ((Walk.trace stream).2 = Walk.heads stream ∧ Progress stream.data (Walk.trace stream).1 ∧
      (Walk.heads stream).2 ≠ .error .tooDeep ∧
      (Walk.heads stream).1 <+: (Walk.trace stream).1.map (headAt stream.data)) ∧
    ((Catalogue.trace stream).2 = Catalogue.openStream stream ∧ Progress stream.data (Catalogue.trace stream).1 ∧
      ∀ c, Catalogue.openStream stream = .ok c → c.entries = (Catalogue.trace stream).1.map (entryAt stream.data)) ∧
    (Mesh.BlockFile.trace stream.data).2 = Mesh.BlockFile.parse stream.data ∧
      Progress stream.data (Mesh.BlockFile.trace stream.data).1 ∧
      ∀ f, Mesh.BlockFile.parse stream.data = .ok f →
        f.blocks.map Mesh.Block.head = (Mesh.BlockFile.trace stream.data).1.map (headAt stream.data) := by
  obtain ⟨walked, heads, ends⟩ := Walk.trace_ascends stream
  obtain ⟨catalogued, entries⟩ := Catalogue.trace_ascends stream
  obtain ⟨parsed, blocks⟩ := Mesh.BlockFile.trace_ascends stream.data
  rw [Walk.trace_snd] at heads ends
  rw [Catalogue.trace_snd] at entries
  rw [Mesh.BlockFile.trace_snd] at blocks
  exact ⟨⟨Walk.trace_snd stream, walked.progress, ends, heads⟩, ⟨Catalogue.trace_snd stream, catalogued.progress, entries⟩,
    Mesh.BlockFile.trace_snd stream.data, parsed.progress, blocks⟩

-- The second head tells the distance eight, so that the third one is read inside it. The walk looks for one more.
set_option maxRecDepth 1024 in
example : (Walk.trace { data := overlapSample }).1 = [20, 64, 72, 96] ∧
    (Catalogue.trace { data := overlapSample }).1 = [20, 64, 72] ∧
    (Mesh.BlockFile.trace overlapSample).1 = [20, 64, 72] := by
  refine ⟨?_, ?_, ?_⟩ <;> cbv

end Container

end GameData
