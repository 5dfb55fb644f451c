import Mathlib
import GameData.Mesh.Model
import GameData.Proofs.Container.Steps
import GameData.Proofs.Table.Records

/-!
The parts of a render mesh.

The length of a part is told by its own head, and the last part by an offset of minus one, so that a chunk may end with
a short part, before its last part, or after it. Main statement: when a chunk of parts has been loaded, the bytes of its
parts in order are all the data that the container and the file hold of it, and the parts always come to an end.
-/
namespace GameData.Mesh

open Filling Container Table

def Part.bytes (shape : Shape) (p : Part) : Bytes :=
  (p.head.map shape.encode).flatten ++ (p.faces.map Model.face.encode).flatten

namespace Model

/-- The heads of parts have no text and are not empty. -/
theorem plain_of_partHead? {type : Nat} {shape : Shape} (known : partHead? type = some shape) :
    shape.plain = true ∧ 0 < shape.size := by
  unfold partHead? at known
  split at known
  · cases known
    exact ⟨by decide, by decide⟩
  · cases known
    exact ⟨by decide, by decide⟩
  · cases known
    exact ⟨by decide, by decide⟩
  · cases known

theorem layoutFor_fill {shapes : Nat → Option Shape} {m : Model} {type : Nat} {shape : Shape}
    (typed : m.modelType = .ok type) (known : shapes type = some shape) (w : Walk) :
    (layoutFor shapes).fill (m, w) = (.ok shape, (m, w)) := by
  have found : (attempt m.modelType : Loading Nat).fill (m, w) = (.ok type, (m, w)) := by
    rw [fill_attempt, typed]
  rw [layoutFor, fill_bind_of_ok (fill_get _), fill_bind_of_ok found]
  simp only [known]
  rfl

/-- One part, and whether it is the last. -/
def readPart : Loading (Part × Bool) := do
  let shape ← layoutFor partHead?
  let b ← readChunk shape.size
  let rows ← attempt (shape.table b)
  match rows with
  | [row] => do
    let b ← readChunk ((row.part 1).toInt * 2)
    let faces ← attempt (face.table b)
    pure (⟨rows, faces⟩, (row.part 2).toInt = -1)
  | _ => throw .mismatch

theorem readParts_succ (size fuel : Nat) : readParts size (fuel + 1) =
    onSecond (Walk.onChunk Window.tell) >>= fun position =>
      if (size : Int) ≤ (position.bind id).getD 0 then pure []
      else readPart >>= fun found => if found.2 then pure [found.1]
        else readParts size fuel >>= fun more => pure (found.1 :: more) := by
  rw [readParts]
  refine congrArg _ (funext fun position => ?_)
  dsimp only
  split
  · rfl
  · unfold readPart
    simp only [bind_assoc]
    refine congrArg _ (funext fun shape => congrArg _ (funext fun b => congrArg _ (funext fun rows => ?_)))
    rcases rows with _ | ⟨row, _ | ⟨next, others⟩⟩
    · rfl
    · simp only [bind_assoc, pure_bind, decide_eq_true_eq]
    · rfl

/-- What a read gives and what it leaves. -/
theorem upTo_append_drop (n : Int) (rest : Bytes) : rest.upTo n ++ rest.drop (rest.upTo n).length = rest := by
  unfold Bytes.upTo
  split
  · rw [List.drop_length, List.append_nil]
  · rw [Bytes.drop_length_take, List.take_append_drop]

section Parts

variable {c : Window} {s : Stream} (mounted : Mounted c s) {h : Head} (small : h.size < 4294967296) {q : Int}
  {m : Model} {type : Nat} {shape : Shape} (typed : m.modelType = .ok type) (known : partHead? type = some shape)
  {w : Walk} {rest : Bytes} (holds : Walk.Holds c s h q w rest)
include mounted small typed known holds

/-- One part takes its bytes from the front of the chunk, and at least one byte. -/
theorem readPart_fill : (∃ f x, readPart.fill (m, w) = (.error f, x) ∧ f ≠ .tooDeep) ∨
    ∃ part last w' left, readPart.fill (m, w) = (.ok (part, last), (m, w')) ∧ Walk.Holds c s h q w' left ∧
      Part.bytes shape part ++ left = rest ∧ left.length < rest.length := by
  obtain ⟨plain, positive⟩ := plain_of_partHead? known
  obtain ⟨w₁, headed, holds₁⟩ := holds.readChunk mounted small shape.size
  have headed : (readChunk shape.size).fill (m, w) = (.ok (rest.upTo shape.size), (m, w₁)) := onSecond_fill headed
  have split₁ := upTo_append_drop shape.size rest
  generalize rest.upTo (shape.size : Int) = b₁ at headed holds₁ split₁
  rw [readPart, fill_bind_of_ok (layoutFor_fill typed known w), fill_bind_of_ok headed]
  cases cut₁ : shape.table b₁ with
  | error f =>
      have failed : (attempt (.error f) : Loading (List Datum)).fill (m, w₁) = (.error f, (m, w₁)) := fill_attempt _ _
      exact .inl ⟨f, _, fill_bind_of_error failed _, Shape.ne_tooDeep_of_table cut₁⟩
  | ok rows =>
      have passed : (attempt (.ok rows) : Loading (List Datum)).fill (m, w₁) = (.ok rows, (m, w₁)) := fill_attempt _ _
      rw [fill_bind_of_ok passed]
      rcases rows with _ | ⟨row, _ | ⟨next, others⟩⟩
      · exact .inl ⟨_, _, rfl, by decide⟩
      · obtain ⟨w₂, faced, holds₂⟩ := holds₁.readChunk mounted small ((row.part 1).toInt * 2)
        have faced : (readChunk ((row.part 1).toInt * 2)).fill (m, w₁) = (.ok _, (m, w₂)) := onSecond_fill faced
        have split₂ := upTo_append_drop ((row.part 1).toInt * 2) (rest.drop b₁.length)
        generalize Bytes.upTo (rest.drop b₁.length) ((row.part 1).toInt * 2) = b₂ at faced holds₂ split₂
        dsimp only
        rw [fill_bind_of_ok faced]
        cases cut₂ : face.table b₂ with
        | error f =>
            have failed : (attempt (.error f) : Loading (List Datum)).fill (m, w₂) = (.error f, (m, w₂)) :=
              fill_attempt _ _
            exact .inl ⟨f, _, fill_bind_of_error failed _, Shape.ne_tooDeep_of_table cut₂⟩
        | ok faces =>
            have passed : (attempt (.ok faces) : Loading (List Datum)).fill (m, w₂) = (.ok faces, (m, w₂)) :=
              fill_attempt _ _
            refine .inr ⟨⟨[row], faces⟩, _, w₂, _, fill_bind_of_ok passed _, holds₂, ?_, ?_⟩
            · rw [Part.bytes, Shape.flatten_encode_table plain positive cut₁,
                Shape.flatten_encode_table (by decide) (by decide) cut₂, List.append_assoc, split₂, split₁]
            · have some : b₁ ≠ [] := by
                rintro rfl
                cases (Shape.table_nil shape).symm.trans cut₁
              have fewer := List.length_pos_iff.mpr some
              have whole := congrArg List.length split₁
              have rest₂ := congrArg List.length split₂
              rw [List.length_append] at whole rest₂
              omega
      · exact .inl ⟨_, _, rfl, by decide⟩

/-- The parts that are read take their bytes from the front of the chunk. Each part takes at least its head, so that a
bound above the number of bytes is never reached. -/
theorem readParts_fill (fuel : Nat) :
    (∃ f x, (readParts h.size fuel).fill (m, w) = (.error f, x) ∧ (rest.length < fuel → f ≠ .tooDeep)) ∨
    ∃ parts w' left, (readParts h.size fuel).fill (m, w) = (.ok parts, (m, w')) ∧ Walk.Holds c s h q w' left ∧
      parts.flatMap (Part.bytes shape) ++ left = rest := by
  induction fuel generalizing w rest with
  | zero => exact .inl ⟨_, _, rfl, fun enough => absurd enough (Nat.not_lt_zero _)⟩
  | succ fuel ih =>
      obtain ⟨r, told, ended⟩ := holds.tell
      rw [readParts_succ, fill_bind_of_ok (onSecond_fill told)]
      by_cases full : (h.size : Int) ≤ r
      · refine .inr ⟨[], w, rest, ?_, holds, List.nil_append _⟩
        rw [Option.bind_some, id, Option.getD_some, if_pos full]
        rfl
      · rw [Option.bind_some, id, Option.getD_some, if_neg full]
        rcases readPart_fill mounted small typed known holds with
          ⟨f, x, failed, fault⟩ | ⟨part, last, w', left, read, holds', taken, fewer⟩
        · exact .inl ⟨f, x, fill_bind_of_error failed _, fun _ => fault⟩
        · rw [fill_bind_of_ok read]
          cases last with
          | true => exact .inr ⟨[part], w', left, rfl, holds', by rw [List.flatMap_singleton, taken]⟩
          | false =>
              rw [if_neg Bool.false_ne_true]
              rcases ih holds' with ⟨f, x, failed, fault⟩ | ⟨parts, w'', left', more, holds'', taken'⟩
              · exact .inl ⟨f, x, fill_bind_of_error failed _, fun enough => fault (by omega)⟩
              · refine .inr ⟨part :: parts, w'', left', fill_bind_of_ok more _, holds'', ?_⟩
                rw [List.flatMap_cons, List.append_assoc, taken', taken]

end Parts

section Stays

variable {c : Window} {s : Stream}

theorem keeps_layoutFor (shapes : Nat → Option Shape) :
    Keeps (fun x : Model × Walk => Walk.Upon (Walk.Loose c s) x.2) (layoutFor shapes) := by
  refine Keeps.get.bind ?_
  rintro ⟨m, w⟩
  refine (Keeps.attempt _).bind fun type => ?_
  split
  · exact .pure _
  · exact .throw _

theorem keeps_readChunk (n : Int) : Keeps (fun x : Model × Walk => Walk.Upon (Walk.Loose c s) x.2) (readChunk n) :=
  .right (Walk.keeps_readChunk (Walk.steady_loose c).chunk n)

theorem keeps_tableOf (shape : Shape) : Keeps (fun x : Model × Walk => Walk.Upon (Walk.Loose c s) x.2) (tableOf shape) :=
  (keeps_readChunk _).bind fun _ => .attempt _

theorem keeps_readParts (size fuel : Nat) :
    Keeps (fun x : Model × Walk => Walk.Upon (Walk.Loose c s) x.2) (readParts size fuel) := by
  induction fuel with
  | zero => exact .throw _
  | succ fuel ih =>
      rw [readParts_succ]
      refine (Keeps.right (Walk.keeps_onChunk (Walk.steady_loose c).chunk.tell)).bind fun position => ?_
      split
      · exact .pure _
      · refine Keeps.bind ?_ fun found => ?_
        · refine (keeps_layoutFor _).bind fun shape => (keeps_readChunk _).bind fun b =>
            (Keeps.attempt _).bind fun rows => ?_
          split
          · exact (keeps_readChunk _).bind fun b => (Keeps.attempt _).bind fun faces => .pure _
          · exact .throw _
        · split
          · exact .pure _
          · exact ih.bind fun more => .pure _

theorem keeps_stored (f : Model → Model) : Keeps (fun x : Model × Walk => Walk.Upon (Walk.Loose c s) x.2) (do
    update f
    let rest ← readChunk (-1)
    require rest.isEmpty (.check .endOfChunk)) :=
  Keeps.bind (.updating fun _ standing => standing) fun _ => (keeps_readChunk _).bind fun _ => .require _ _

/-- Loading a chunk leaves the walk on it. -/
theorem stays_loadChunk : Walk.Stays loadChunk := by
  intro c s h
  unfold loadChunk
  cases kind : Kind.ofFourcc? h.fourcc with
  | none => exact .throw _
  | some k =>
      cases k with
      | hsem | atta | xtvm | trop | xvtp | cftp | pmtl | hsmc | xtvc | ecfc | tamc | hpsc =>
          exact (keeps_tableOf _).bind fun t => keeps_stored _
      | d3dr | xtrv =>
          exact (keeps_readChunk _).bind fun b => (keeps_layoutFor _).bind fun shape =>
            (Keeps.attempt _).bind fun t => keeps_stored _
      | dner =>
          refine Keeps.get.bind ?_
          rintro ⟨m, w⟩
          exact (keeps_readParts _ _).bind fun parts => keeps_stored _
      | txan => exact (keeps_readChunk _).bind fun b => keeps_stored _
      | reih | manb | wolg | ecaf | hprm | sems | xtvs | cafs | egde => exact .throw _

end Stays

/-- How a chunk of parts is loaded. -/
theorem loadChunk_dner {h : Head} (mark : Kind.ofFourcc? h.fourcc = some .dner) (m : Model) (w : Walk) :
    (loadChunk h).fill (m, w) = (readParts h.size (w.outer.2.data.length + 2) >>= fun parts =>
      update ({ · with dner := parts }) >>= fun _ => readChunk (-1) >>= fun rest =>
        require rest.isEmpty (.check .endOfChunk)).fill (m, w) := by
  unfold loadChunk
  simp only [mark]
  rw [fill_bind_of_ok (fill_get _)]

/-- Whatever numbers of indices and offsets the parts tell, a chunk of parts that has been loaded is stored whole: the
bytes of its parts, in order, are the data that the container and the file hold of it. The loop over the parts ends in
any case. The chunk may be any one that loading comes to, after a head with a model type that has parts. -/
theorem parts_fill_chunk {stream : Stream} {walk : Walk} (opened : Walk.openFile stream = .ok walk) {first m : Model}
    {w v : Walk} (reached : Walk.Reaches loadChunk (first, walk) (m, w)) {h : Head}
    (moved : Walk.advance.fill w = (.ok (some h), v)) (mark : Kind.ofFourcc? h.fourcc = some .dner) {type : Nat}
    {shape : Shape} (typed : m.modelType = .ok type) (known : partHead? type = some shape) :
    ((loadChunk h).fill (m, v)).1 ≠ .error .tooDeep ∧
    ∀ m' v', (loadChunk h).fill (m, v) = (.ok (), (m', v')) →
      m'.dner.flatMap (Part.bytes shape) = stream.data.slice v.outer.2.position
        (min h.size (v.outer.1.head.size - v.outer.1.position : Int).toNat) := by
  obtain ⟨c, s, q, p, mounted, data, entered⟩ := reached.entered stays_loadChunk opened moved
  rw [loadChunk_dner mark, entered.outer, ← data]
  have size : (mount c s q p).2.data.length = s.data.length := rfl
  rcases readParts_fill mounted entered.small typed known entered.holds ((mount c s q p).2.data.length + 2) with
    ⟨f, x, failed, fault⟩ | ⟨parts, u, left, read, holds, taken⟩
  · rw [fill_bind_of_error failed]
    refine ⟨fun deep => ?_, fun m' v' done => ?_⟩
    · cases deep
      refine fault ?_ rfl
      rw [Bytes.length_slice]
      omega
    · cases done
  · obtain ⟨u', ended, -⟩ := holds.readChunk mounted entered.small (-1)
    have stored : (update ({ · with dner := parts })).fill (m, u) = (.ok (), ({ m with dner := parts }, u)) := rfl
    have ended : (readChunk (-1)).fill ({ m with dner := parts }, u) = (.ok left, ({ m with dner := parts }, u')) :=
      onSecond_fill ended
    rw [fill_bind_of_ok read, fill_bind_of_ok stored, fill_bind_of_ok ended, fill_require]
    refine ⟨fun deep => ?_, fun m' v' done => ?_⟩
    · cases empty : left.isEmpty with
      | true =>
          rw [empty] at deep
          cases deep
      | false =>
          rw [empty] at deep
          cases deep
    · obtain ⟨checked, after⟩ := Prod.mk.inj done
      cases after
      rw [List.isEmpty_iff.mp (ensure_eq_ok.mp checked), List.append_nil] at taken
      exact taken

/-- A mesh with a head of type zero and two parts. The first part has no indices; the second tells minus one of them,
which stands for all that is left, and is the last. The chunk of parts tells two bytes more than the file has. -/
def partsSample : Bytes :=
  Bytes.ofText "ILFF" ++ [0, 1, 0, 0, 4, 0, 0, 0, 0, 0, 0, 0] ++ Bytes.ofText "OCEM" ++
  Bytes.ofText "HSEM" ++ [156, 0, 0, 0, 4, 0, 0, 0, 172, 0, 0, 0] ++ Bytes.zeros 156 ++
  Bytes.ofText "DNER" ++ [64, 0, 0, 0, 4, 0, 0, 0, 0, 0, 0, 0] ++
  Bytes.zeros 28 ++ Bytes.zeros 12 ++ [255, 255, 255, 255] ++ Bytes.zeros 12 ++ [1, 0, 2, 0, 3, 0]

def partsOpened : Walk where
  outer := ({ head := ⟨Bytes.ofText "ILFF", 256, 4, 0⟩, offset := some 16, position := 4 },
    { data := partsSample, position := 20 })
  type := Bytes.ofText "OCEM"

def partsHeaded : Model where
  hsem := some [.list (List.replicate 12 (.int 0) ++ List.replicate 12 (.real ⟨0⟩) ++ List.replicate 6 (.int 0) ++
    [.real ⟨0⟩] ++ List.replicate 6 (.int 0) ++ [.list (List.replicate 20 (.int 0))])]

def partsEntered : Walk where
  outer := ({ head := ⟨Bytes.ofText "ILFF", 256, 4, 0⟩, offset := some 16, position := 192 },
    { data := partsSample, position := 208 })
  type := Bytes.ofText "OCEM"
  current := some { head := ⟨Bytes.ofText "DNER", 64, 4, 0⟩, offset := some 192 }
  phase := .within

set_option maxRecDepth 8000 in
theorem reaches_partsHeaded : ∃ w, Walk.Reaches loadChunk ({}, partsOpened) (partsHeaded, w) ∧
    Walk.advance.fill w = (.ok (some ⟨Bytes.ofText "DNER", 64, 4, 0⟩), partsEntered) := by
  have moved : (Walk.advance.fill partsOpened).1 = .ok (some ⟨Bytes.ofText "HSEM", 156, 4, 172⟩) := by cbv
  have loaded : ((loadChunk ⟨Bytes.ofText "HSEM", 156, 4, 172⟩).fill ({}, (Walk.advance.fill partsOpened).2)).1 =
      .ok () := by
    cbv
  have model : ((loadChunk ⟨Bytes.ofText "HSEM", 156, 4, 172⟩).fill ({}, (Walk.advance.fill partsOpened).2)).2.1 =
      partsHeaded := by
    cbv
  have start : Walk.Reaches loadChunk ({}, partsOpened) ({}, partsOpened) := .first
  exact ⟨_, start.next (Prod.ext moved rfl) (Prod.ext loaded (Prod.ext model rfl)), by cbv⟩

set_option maxRecDepth 8000 in
theorem parts_fill_chunk_partsSample :
    Walk.openFile { data := partsSample } = .ok partsOpened ∧
    ((loadChunk ⟨Bytes.ofText "DNER", 64, 4, 0⟩).fill (partsHeaded, partsEntered)).1 = .ok () ∧
    ((loadChunk ⟨Bytes.ofText "DNER", 64, 4, 0⟩).fill (partsHeaded, partsEntered)).2.1.dner.flatMap
      (Part.bytes (runs [(1, .many 3 f32), (8, i16)])) = partsSample.drop 208 := by
  have opened : Walk.openFile { data := partsSample } = .ok partsOpened := by cbv
  have loaded : ((loadChunk ⟨Bytes.ofText "DNER", 64, 4, 0⟩).fill (partsHeaded, partsEntered)).1 = .ok () := by
    have fine : ((loadChunk ⟨Bytes.ofText "DNER", 64, 4, 0⟩).fill (partsHeaded, partsEntered)).1.isOk = true := by
      decide +kernel
    cases outcome : ((loadChunk ⟨Bytes.ofText "DNER", 64, 4, 0⟩).fill (partsHeaded, partsEntered)).1 with
    | ok => rfl
    | error f =>
        rw [outcome] at fine
        cases fine
  obtain ⟨w, reached, moved⟩ := reaches_partsHeaded
  have filled := (parts_fill_chunk opened reached moved (by decide +kernel) rfl rfl).2 _ _ (Prod.ext loaded rfl)
  exact ⟨opened, loaded, filled.trans (by cbv)⟩

end Model

end GameData.Mesh
