import GameData.Proofs.Texture.Sheet

/-!
Terrain textures loaded and saved again.

Each step of loading takes a piece from the front of what is left and keeps all that the piece says, so that the parts
that are saved, one after another, are the bytes that were taken. Pixels are taken without a look at their number; where
they come up short nothing is left for the footer, so a texture that was loaded has all of its pixels.
-/
namespace GameData.Texture

namespace Slot

/-- No value is rounded in the field. -/
def precise : Slot → Bool
  | .number .f32 => false
  | _ => true

theorem of_decode {s : Slot} (precise : s.precise = true) {b : Bytes} (length : b.length = s.width) :
    s.Takes (s.decode b) ∧ s.encode (s.decode b) = .ok b := by
  cases s with
  | mark => exact ⟨length, congrArg Except.ok (List.take_left' length)⟩
  | number f =>
      have integer : f ≠ .f32 := by
        rintro rfl
        cases precise
      rw [decode, Field.unpack_int integer]
      refine ⟨integer, ?_⟩
      rw [encode, Field.pack_int integer, Field.packInt_unpackInt length]

end Slot

namespace Layout

theorem map_fst_decode (l : Layout) (b : Bytes) : (l.decode b).map Prod.fst = l.map Prod.fst := by
  induction l generalizing b with
  | nil => rfl
  | cons p l ih =>
      rw [decode, List.map_cons, List.map_cons, ih]

/-- A field that stands once is found under its name. -/
theorem lookup_of_mem {fields : Fields} (distinct : (fields.map Prod.fst).Nodup) {name : String} {v : Value}
    (mem : (name, v) ∈ fields) : fields.lookup name = some v := by
  obtain ⟨before, after, rfl⟩ := List.append_of_mem mem
  apply List.lookup_eq_some_iff.mpr
  refine ⟨before, after, rfl, ?_⟩
  intro p earlier
  rw [List.map_append, List.nodup_append] at distinct
  have differ := distinct.2.2 p.1 (List.mem_map_of_mem earlier) name List.mem_cons_self
  exact bne_iff_ne.mpr differ.symm

theorem written_of_decode {fields : Fields} {l : Layout} (precise : ∀ p ∈ l, p.2.precise = true) {b : Bytes}
    (length : b.length = l.size) (values : ∀ p ∈ l.decode b, fields.lookup p.1 = some p.2) : Written fields l b := by
  induction l generalizing b with
  | nil =>
      cases List.eq_nil_of_length_eq_zero length
      exact .nil
  | cons p l ih =>
      rw [size_cons] at length
      obtain ⟨first, others⟩ := List.forall_mem_cons.mp precise
      obtain ⟨value, further⟩ := List.forall_mem_cons.mp values
      have width : (b.take p.2.width).length = p.2.width := by
        rw [List.length_take]
        omega
      have rest : (b.drop p.2.width).length = size l := by
        rw [List.length_drop]
        omega
      obtain ⟨takes, encoded⟩ := Slot.of_decode first width
      have written := Written.cons value takes encoded (ih others rest further)
      rwa [List.take_append_drop] at written

theorem Written.write {fields : Fields} {l : Layout} {b : Bytes} (h : Written fields l b) (owner : String) :
    l.write owner fields = .ok b := by
  have pieces : ∃ values parts, (l.mapM fun p => (demand owner p.1 (fields.lookup p.1)).map fun v => (p.2, v)) =
      .ok values ∧ (values.mapM fun q => q.1.encode q.2) = .ok parts ∧ parts.flatten = b := by
    induction h with
    | nil => exact ⟨[], [], rfl, rfl, rfl⟩
    | @cons name s v piece l rest value takes encoded others ih =>
        obtain ⟨values, parts, demanded, packed, rfl⟩ := ih
        have first : (demand owner name (fields.lookup name)).map (fun v => (s, v)) = .ok (s, v) :=
          map_eq_ok.mpr ⟨v, demand_eq_ok.mpr value, rfl⟩
        exact ⟨(s, v) :: values, piece :: parts, mapM_cons_eq_ok.mpr ⟨_, values, first, demanded, rfl⟩,
          mapM_cons_eq_ok.mpr ⟨piece, parts, encoded, packed, rfl⟩, List.flatten_cons⟩
  obtain ⟨values, parts, demanded, packed, rfl⟩ := pieces
  exact bind_eq_ok.mpr ⟨values, demanded, bind_eq_ok.mpr ⟨parts, packed, rfl⟩⟩

/-- No name stands twice in the layout, and no value is rounded. -/
structure Proper (l : Layout) : Prop where
  distinct : (l.map Prod.fst).Nodup
  precise : ∀ p ∈ l, p.2.precise = true

theorem Proper.write_decode {l : Layout} (proper : l.Proper) (owner : String) {b : Bytes} (length : b.length = l.size) :
    l.write owner (l.decode b) = .ok b := by
  apply Written.write
  apply written_of_decode proper.precise length
  intro p mem
  apply lookup_of_mem
  · rw [map_fst_decode]
    exact proper.distinct
  · exact mem

theorem proper_header : headerLayout.Proper := ⟨by decide +kernel, by decide +kernel⟩

theorem proper_layer : layerLayout.Proper := ⟨by decide +kernel, by decide +kernel⟩

theorem proper_footer : footerLayout.Proper := ⟨by decide +kernel, by decide +kernel⟩

/-- The values of a run of words are packed into the bytes they were read from. -/
theorem packMany_decode_words (names : List String) {b : Bytes} (length : b.length = (words names).size) :
    Field.u32.packMany names.length (((words names).decode b).map Prod.snd) = .ok b := by
  have counted : (((words names).decode b).map Prod.snd).length = names.length := by
    have same := congrArg List.length (map_fst_decode (words names) b)
    rw [List.length_map, List.length_map, words, List.length_map] at same
    rw [List.length_map]
    exact same
  have packed : ∃ parts, (((words names).decode b).map Prod.snd).mapM Field.u32.pack = .ok parts ∧ parts.flatten = b := by
    clear counted
    induction names generalizing b with
    | nil =>
        cases List.eq_nil_of_length_eq_zero length
        exact ⟨[], rfl, rfl⟩
    | cons name names ih =>
        rw [words, List.map_cons, size_cons] at length
        have width : (b.take 4).length = Field.u32.width := by
          rw [List.length_take]
          exact Nat.min_eq_left (Nat.le.intro length.symm)
        have rest : (b.drop 4).length = (words names).size := by
          rw [List.length_drop, length]
          exact Nat.add_sub_cancel_left ..
        obtain ⟨parts, others, joined⟩ := ih rest
        refine ⟨b.take 4 :: parts, mapM_cons_eq_ok.mpr ⟨_, parts, ?_, others, rfl⟩, ?_⟩
        · exact (Slot.of_decode (s := .number .u32) rfl width).2
        · rw [List.flatten_cons, joined, List.take_append_drop]
  obtain ⟨parts, each, joined⟩ := packed
  rw [Field.packMany, if_pos counted, each]
  exact congrArg Except.ok joined

end Layout

namespace TerrainSheet

open Filling Layout

variable {t t' : TerrainSheet} {data rest : Bytes}

theorem next_inv {l : Layout} {fields : Fields} (h : (next l).fill (t, data) = (.ok fields, (t', rest))) :
    t' = t ∧ ∃ record, record.length = l.size ∧ fields = l.decode record ∧ data = record ++ rest := by
  obtain ⟨_, _, got, h⟩ := fill_bind_eq_ok.mp h
  cases got
  obtain ⟨_, _, read, h⟩ := fill_bind_eq_ok.mp h
  rw [fill_attempt] at read
  cases h
  obtain ⟨read, _⟩ := Prod.mk.inj read
  obtain ⟨record, whole, decoded⟩ := bind_eq_ok.mp read
  obtain ⟨length, rfl⟩ := exactly_eq_ok.mp whole
  cases decoded
  exact ⟨rfl, _, length, rfl, (List.take_append_drop _ _).symm⟩

/-- The heads of the layers that were read. -/
theorem loadLayers_inv {n : Nat} (h : (loadLayers n).fill (t, data) = (.ok (), (t', rest))) :
    ∃ layers heads, t' = { t with layers := t.layers ++ layers } ∧
      (layers.map (·.fields)).mapM (layerLayout.write "Layer") = .ok heads ∧ data = heads.flatten ++ rest := by
  induction n generalizing t data with
  | zero =>
      cases h
      refine ⟨[], [], ?_, rfl, rfl⟩
      rw [List.append_nil]
  | succ n ih =>
      obtain ⟨_, ⟨_, _⟩, first, further⟩ := fill_bind_eq_ok.mp h
      obtain ⟨rfl, record, length, rfl, rfl⟩ := next_inv first
      rw [fill_bind_of_ok (update_fill ..)] at further
      obtain ⟨layers, heads, rfl, written, rfl⟩ := ih further
      have head := proper_layer.write_decode "Layer" length
      refine ⟨⟨layerLayout.decode record, []⟩ :: layers, record :: heads, ?_,
        mapM_cons_eq_ok.mpr ⟨record, heads, head, written, rfl⟩, ?_⟩
      · rw [List.append_assoc, List.singleton_append]
      · rw [List.flatten_cons, List.append_assoc]

/-- The pixels of layers, which are all there if anything follows them. -/
theorem loadPixels_inv {before layers : List TerrainLayer}
    (h : (loadPixels before layers).fill (t, data) = (.ok (), (t', rest))) :
    ∃ loaded, t' = { t with layers := before ++ loaded } ∧ loaded.map (·.fields) = layers.map (·.fields) ∧
      data = (loaded.map (·.pixels)).flatten ++ rest ∧
      (rest ≠ [] → ∀ l ∈ loaded, pixelBytes l.fields = .ok l.pixels.length) := by
  induction layers generalizing before data with
  | nil =>
      cases h
      refine ⟨[], ?_, rfl, rfl, fun _ => List.forall_mem_nil _⟩
      rw [List.append_nil]
  | cons layer layers ih =>
      rw [loadPixels] at h
      split at h
      case h_1 => cases h
      case h_2 size sized =>
        rw [fill_bind_of_ok (fill_get _)] at h
        simp only at h
        rw [fill_bind_of_ok (fill_set ..)] at h
        generalize amount : (if size < 0 then data.length else size.toNat) = n at h
        obtain ⟨loaded, rfl, fields, joined, complete⟩ := ih h
        refine ⟨{ layer with pixels := data.take n } :: loaded, ?_, ?_, ?_, ?_⟩
        · rw [List.append_assoc, List.singleton_append]
        · rw [List.map_cons, List.map_cons, fields]
        · rw [List.map_cons, List.flatten_cons, List.append_assoc, ← joined, List.take_append_drop]
        · intro more
          refine List.forall_mem_cons.mpr ⟨?_, complete more⟩
          -- what is left after the pixels shows that they ended before the file did
          have inside : n < data.length := by
            have left := congrArg List.length joined
            have := List.length_pos_iff.mpr more
            rw [List.length_drop, List.length_append] at left
            omega
          have taken : (data.take n).length = n := by
            rw [List.length_take]
            omega
          rw [sized, taken]
          split at amount <;> exact congrArg Except.ok (by omega)

theorem readRow_inv {n : Nat} {row : PatchRow} (h : (readRow n).fill (t, data) = (.ok row, (t', rest))) :
    t' = t ∧ ∃ parts, row.mapM (Field.u32.packMany 4) = .ok parts ∧ data = parts.flatten ++ rest := by
  induction n generalizing data row with
  | zero =>
      cases h
      exact ⟨rfl, [], rfl, rfl⟩
  | succ n ih =>
      obtain ⟨_, ⟨_, _⟩, first, further⟩ := fill_bind_eq_ok.mp h
      obtain ⟨rfl, record, length, rfl, rfl⟩ := next_inv first
      obtain ⟨_, ⟨_, _⟩, others, last⟩ := fill_bind_eq_ok.mp further
      cases last
      obtain ⟨rfl, parts, packed, rfl⟩ := ih others
      have patch := packMany_decode_words ["x0", "x1", "x2", "x3"] length
      refine ⟨rfl, record :: parts, mapM_cons_eq_ok.mpr ⟨record, parts, patch, packed, rfl⟩, ?_⟩
      rw [List.flatten_cons, List.append_assoc]

theorem loadRows_inv {columns n : Nat} (h : (loadRows columns n).fill (t, data) = (.ok (), (t', rest))) :
    ∃ rows parts, t' = { t with patches := t.patches ++ rows } ∧
      rows.flatten.mapM (Field.u32.packMany 4) = .ok parts ∧ data = parts.flatten ++ rest := by
  induction n generalizing t data with
  | zero =>
      cases h
      refine ⟨[], [], ?_, rfl, rfl⟩
      rw [List.append_nil]
  | succ n ih =>
      obtain ⟨row, ⟨_, _⟩, first, further⟩ := fill_bind_eq_ok.mp h
      obtain ⟨rfl, parts, packed, rfl⟩ := readRow_inv first
      rw [fill_bind_of_ok (update_fill ..)] at further
      obtain ⟨rows, more, rfl, others, rfl⟩ := ih further
      refine ⟨row :: rows, parts ++ more, ?_, ?_, ?_⟩
      · rw [List.append_assoc, List.singleton_append]
      · rw [List.flatten_cons]
        exact mapM_append_eq_ok.mpr ⟨parts, more, packed, others, rfl⟩
      · rw [List.flatten_append, List.append_assoc]

theorem save_of_parts {head foot : Bytes} {heads patches : List Bytes}
    (header : headerLayout.write "TEXHeader" t.header = .ok head)
    (layers : (t.layers.map (·.fields)).mapM (layerLayout.write "Layer") = .ok heads)
    (footer : footerLayout.write "TEXFooter" t.footer = .ok foot)
    (patched : t.patches.flatten.mapM (Field.u32.packMany 4) = .ok patches) :
    t.save = .ok (head ++ (heads.flatten ++ ((t.layers.map (·.pixels)).flatten ++ (foot ++ patches.flatten)))) := by
  have pixels : t.layers.mapM (fun l => (.ok l.pixels : Except Fault Bytes)) = .ok (t.layers.map (·.pixels)) :=
    mapM_eq_ok_map fun l _ => rfl
  have all : t.parts.mapM id = .ok ([head] ++ heads ++ t.layers.map (·.pixels) ++ [foot] ++ patches) := by
    rw [← mapM_id_map] at layers pixels patched
    rw [List.map_map] at layers
    have front : [headerLayout.write "TEXHeader" t.header].mapM id = .ok [head] :=
      mapM_singleton_eq_ok.mpr ⟨head, header, rfl⟩
    have back : [footerLayout.write "TEXFooter" t.footer].mapM id = .ok [foot] :=
      mapM_singleton_eq_ok.mpr ⟨foot, footer, rfl⟩
    have headed := mapM_append_eq_ok.mpr ⟨_, _, front, layers, rfl⟩
    have filled := mapM_append_eq_ok.mpr ⟨_, _, headed, pixels, rfl⟩
    have ended := mapM_append_eq_ok.mpr ⟨_, _, filled, back, rfl⟩
    exact mapM_append_eq_ok.mpr ⟨_, _, ended, patched, rfl⟩
  refine map_eq_ok.mpr ⟨_, all, ?_⟩
  simp only [List.flatten_append, List.flatten_cons, List.flatten_nil, List.append_nil, List.append_assoc]

def unread (data : Bytes) : Bytes := (loadAll.fill ({}, data)).2.2

theorem loadAll_of_load (h : load data {} = (.ok (), t)) : loadAll.fill ({}, data) = (.ok (), (t, unread data)) := by
  obtain ⟨outcome, sheet⟩ := Prod.mk.inj h
  exact Prod.ext outcome (Prod.ext sheet rfl)

/-- A texture that was loaded consists of what was read, and none of its pixels are missing. -/
theorem parts_of_loadAll (h : loadAll.fill ({}, data) = (.ok (), (t, rest))) :
    (∃ written, t.save = .ok written ∧ data = written ++ rest) ∧
      ∀ l ∈ t.layers, pixelBytes l.fields = .ok l.pixels.length := by
  obtain ⟨_, ⟨_, _⟩, header, first⟩ := fill_bind_eq_ok.mp h
  obtain ⟨rfl, head, headLength, rfl, rfl⟩ := next_inv header
  rw [fill_bind_of_ok (update_fill ..)] at first
  obtain ⟨_, ⟨_, _⟩, layered, second⟩ := fill_bind_eq_ok.mp first
  obtain ⟨layers, heads, rfl, headed, rfl⟩ := loadLayers_inv layered
  rw [fill_bind_of_ok (fill_get _)] at second
  obtain ⟨_, ⟨_, _⟩, pixels, third⟩ := fill_bind_eq_ok.mp second
  obtain ⟨loaded, rfl, fields, rfl, complete⟩ := loadPixels_inv pixels
  obtain ⟨_, ⟨_, _⟩, footer, fourth⟩ := fill_bind_eq_ok.mp third
  obtain ⟨rfl, foot, footLength, rfl, rfl⟩ := next_inv footer
  rw [fill_bind_of_ok (update_fill ..)] at fourth
  obtain ⟨rows, patches, rfl, patched, rfl⟩ := loadRows_inv fourth
  have again : (loaded.map (·.fields)).mapM (layerLayout.write "Layer") = .ok heads := by
    rw [fields]
    exact headed
  refine ⟨⟨_, save_of_parts (proper_header.write_decode _ headLength) again (proper_footer.write_decode _ footLength)
    patched, ?_⟩, complete ?_⟩
  · simp only [List.append_assoc]
    rfl
  · intro empty
    rw [(List.append_eq_nil_iff.mp empty).1] at footLength
    exact absurd footLength (by decide)

/-- A texture that was loaded from a file is saved as the bytes of the file that were read, which is the whole file if
nothing follows the footer; and each of its layers has all the pixels that its sides and its mode call for. -/
theorem saved_as_loaded (h : load data {} = (.ok (), t)) :
    (∃ written, t.save = .ok written ∧ written ++ unread data = data) ∧
    (unread data = [] → t.save = .ok data) ∧ ∀ l ∈ t.layers, pixelBytes l.fields = .ok l.pixels.length := by
  obtain ⟨⟨written, saved, file⟩, complete⟩ := parts_of_loadAll (loadAll_of_load h)
  refine ⟨⟨written, saved, file.symm⟩, ?_, complete⟩
  intro nothing
  rw [nothing, List.append_nil] at file
  rw [saved, file]

/-- A texture with layers of two modes, two rows of one patch each, and a byte behind the footer. -/
def patchedSample : Bytes :=
  [0x4c, 0x4f, 0x4f, 0x50] ++ [9, 0, 0, 0, 0, 0, 126, 2, 0, 1, 2, 3].flatMap (Bytes.toLE 4)
    ++ [116, 2].flatMap (Bytes.toLE 4) ++ [2, 1, 1, 0].flatMap (Bytes.toLE 2) ++ [0, 0, 0, 0].flatMap (Bytes.toLE 4)
    ++ [118, 67].flatMap (Bytes.toLE 4) ++ [4, 1, 2, 0].flatMap (Bytes.toLE 2) ++ [1, 2, 3, 4].flatMap (Bytes.toLE 4)
    ++ [11, 12] ++ [21, 22, 23, 24, 25, 26, 27, 28]
    ++ [0x50, 0x4f, 0x4f, 0x4c] ++ Bytes.toLE 4 6 ++ [1, 2, 3, 4].flatMap (Bytes.toLE 2) ++ [2, 1].flatMap (Bytes.toLE 4)
    ++ [1, 2, 3, 0xffffffff].flatMap (Bytes.toLE 4) ++ [5, 6, 7, 8].flatMap (Bytes.toLE 4)
    ++ [255]

theorem saved_as_loaded_patchedSample :
    ∃ t written, load patchedSample {} = (.ok (), t) ∧ t.save = .ok written ∧ written ++ [255] = patchedSample ∧
      t.layers.map (·.pixels) = [[11, 12], [21, 22, 23, 24, 25, 26, 27, 28]] ∧
      ∀ l ∈ t.layers, pixelBytes l.fields = .ok l.pixels.length := by
  have loaded : (load patchedSample {}).1.isOk = true := by decide +kernel
  have left : unread patchedSample = [255] := by decide +kernel
  have pixels : (load patchedSample {}).2.layers.map (·.pixels) = [[11, 12], [21, 22, 23, 24, 25, 26, 27, 28]] := by
    decide +kernel
  rcases run : load patchedSample {} with ⟨outcome, t⟩
  rw [run] at loaded pixels
  cases outcome with
  | error f => cases loaded
  | ok done =>
      obtain ⟨⟨written, saved, whole⟩, _, complete⟩ := saved_as_loaded run
      rw [left] at whole
      exact ⟨t, written, rfl, saved, whole, pixels, complete⟩

end TerrainSheet

end GameData.Texture
