import GameData.Proofs.Texture.Records

/-!
Terrain textures saved and loaded again.

A saved texture is its header, the heads of its layers, their pixels and its footer, one after another. A texture
without patches whose fields fit and whose layers tell the sizes of their pixels is loaded from these bytes as it was.
-/
namespace GameData.Texture.TerrainSheet

open Filling Layout

section Filling

variable (t : TerrainSheet) (rest : Bytes)

theorem next_fill {l : Layout} {record : Bytes} (length : record.length = l.size) :
    (next l).fill (t, record ++ rest) = (.ok (l.decode record), (t, rest)) := by
  rw [next, fill_bind_of_ok (fill_get _)]
  simp only [read_append length]
  rfl

theorem update_fill (f : TerrainSheet → TerrainSheet) : (update f).fill (t, rest) = (.ok (), (f t, rest)) := rfl

theorem loadLayers_fill {heads : List Bytes} (size : ∀ h ∈ heads, h.length = layerLayout.size) :
    (loadLayers heads.length).fill (t, heads.flatten ++ rest) =
      (.ok (), ({ t with layers := t.layers ++ heads.map fun h => ⟨layerLayout.decode h, []⟩ }, rest)) := by
  induction heads generalizing t with
  | nil => rw [List.map_nil, List.append_nil]; rfl
  | cons h heads ih =>
      obtain ⟨first, others⟩ := List.forall_mem_cons.mp size
      rw [List.length_cons, loadLayers, List.flatten_cons, List.append_assoc, fill_bind_of_ok (next_fill t _ first),
        fill_bind_of_ok (update_fill ..), ih _ others, List.append_assoc]
      rfl

theorem loadPixels_fill (before : List TerrainLayer) {layers : List TerrainLayer}
    (sized : ∀ l ∈ layers, pixelBytes l.fields = .ok l.pixels.length) :
    (loadPixels before (layers.map fun l => ⟨l.fields, []⟩)).fill (t, (layers.map (·.pixels)).flatten ++ rest) =
      (.ok (), ({ t with layers := before ++ layers }, rest)) := by
  induction layers generalizing before with
  | nil => rw [List.append_nil]; rfl
  | cons l layers ih =>
      obtain ⟨first, others⟩ := List.forall_mem_cons.mp sized
      have notAll : ¬ (l.pixels.length : Int) < 0 := by omega
      rw [List.map_cons, loadPixels, first, fill_bind_of_ok (fill_get _)]
      simp only [if_neg notAll, Int.toNat_natCast, List.map_cons, List.flatten_cons, List.append_assoc, List.drop_left,
        List.take_left]
      rw [fill_bind_of_ok (fill_set ..), ih _ others, List.append_assoc]
      rfl

end Filling

/-- A texture without patches that loading takes: all fields fit, the header counts the layers, and each layer tells the
size of its pixels. -/
structure Loadable (t : TerrainSheet) : Prop where
  header : headerLayout.Fits t.header
  layers : ∀ l ∈ t.layers, layerLayout.Fits l.fields
  footer : footerLayout.Fits t.footer
  counted : natOf t.header "layer_count" = t.layers.length
  sized : ∀ l ∈ t.layers, pixelBytes l.fields = .ok l.pixels.length
  flat : natOf t.footer "count_x" = 0
  patches : t.patches = []

/-- A file is the header of a texture, the heads of its layers, their pixels and its footer. -/
structure Pieces (t : TerrainSheet) (b head : Bytes) (heads : List Bytes) (foot : Bytes) : Prop where
  header : headerLayout.write "TEXHeader" t.header = .ok head
  size : ∀ h ∈ heads, h.length = layerLayout.size
  layers : heads.map layerLayout.decode = t.layers.map (·.fields)
  footer : footerLayout.write "TEXFooter" t.footer = .ok foot
  file : b = head ++ (heads.flatten ++ ((t.layers.map (·.pixels)).flatten ++ foot))

theorem mapM_id_map {α : Type} (f : α → Except Fault Bytes) (xs : List α) : (xs.map f).mapM id = xs.mapM f := by
  rw [List.mapM_map]
  rfl

/-- Saving succeeds when every part does, and writes the parts one after another. -/
theorem save_inv {t : TerrainSheet} {b : Bytes} (h : t.save = .ok b) :
    ∃ head heads foot patches, headerLayout.write "TEXHeader" t.header = .ok head ∧
      t.layers.mapM (fun l => layerLayout.write "Layer" l.fields) = .ok heads ∧
      footerLayout.write "TEXFooter" t.footer = .ok foot ∧
      t.patches.flatten.mapM (Field.u32.packMany 4) = .ok patches ∧
      b = head ++ (heads.flatten ++ ((t.layers.map (·.pixels)).flatten ++ (foot ++ patches.flatten))) := by
  obtain ⟨_, all, rfl⟩ := map_eq_ok.mp h
  obtain ⟨_, patches, toFooter, patched, rfl⟩ := mapM_append_eq_ok.mp all
  obtain ⟨_, _, toPixels, last, rfl⟩ := mapM_append_eq_ok.mp toFooter
  obtain ⟨_, pixels, toHeads, stored, rfl⟩ := mapM_append_eq_ok.mp toPixels
  obtain ⟨_, heads, first, headed, rfl⟩ := mapM_append_eq_ok.mp toHeads
  obtain ⟨head, header, rfl⟩ := mapM_singleton_eq_ok.mp first
  obtain ⟨foot, footer, rfl⟩ := mapM_singleton_eq_ok.mp last
  rw [mapM_id_map] at headed stored patched
  rw [mapM_eq_ok_map fun l _ => rfl] at stored
  obtain rfl := Except.ok.inj stored
  refine ⟨head, heads, foot, patches, header, headed, footer, patched, ?_⟩
  simp only [List.flatten_append, List.flatten_cons, List.flatten_nil, List.append_nil, List.append_assoc]

/-- The heads of layers whose fields fit. -/
theorem heads_of_mapM {layers : List TerrainLayer} {heads : List Bytes}
    (fits : ∀ l ∈ layers, layerLayout.Fits l.fields)
    (h : layers.mapM (fun l => layerLayout.write "Layer" l.fields) = .ok heads) :
    (∀ h ∈ heads, h.length = layerLayout.size) ∧ heads.map layerLayout.decode = layers.map (·.fields) := by
  induction layers generalizing heads with
  | nil =>
      cases h
      exact ⟨List.forall_mem_nil _, rfl⟩
  | cons l layers ih =>
      obtain ⟨head, heads, first, others, rfl⟩ := mapM_cons_eq_ok.mp h
      obtain ⟨fit, fits⟩ := List.forall_mem_cons.mp fits
      have written := fit.written first
      obtain ⟨size, fields⟩ := ih fits others
      refine ⟨List.forall_mem_cons.mpr ⟨written.length, size⟩, ?_⟩
      rw [List.map_cons, List.map_cons, written.decode, fit.arranged, fields]

theorem Loadable.pieces {t : TerrainSheet} {b : Bytes} (h : t.Loadable) (saved : t.save = .ok b) :
    ∃ head heads foot, t.Pieces b head heads foot := by
  obtain ⟨head, heads, foot, patches, header, layers, footer, patched, file⟩ := save_inv saved
  rw [h.patches, List.flatten_nil, List.mapM_nil] at patched
  cases patched
  rw [List.flatten_nil, List.append_nil] at file
  obtain ⟨size, fields⟩ := heads_of_mapM h.layers layers
  exact ⟨head, heads, foot, header, size, fields, footer, file⟩

namespace Pieces

variable {t : TerrainSheet} {b head foot : Bytes} {heads : List Bytes} (p : t.Pieces b head heads foot)
include p

theorem length_heads : heads.length = t.layers.length := by
  have same := congrArg List.length p.layers
  rwa [List.length_map, List.length_map] at same

theorem load (h : t.Loadable) : load b {} = (.ok (), t) := by
  have headed := h.header.written p.header
  have footed := h.footer.written p.footer
  have header : headerLayout.decode head = t.header := headed.decode.trans h.header.arranged
  have footer : footerLayout.decode foot = t.footer := footed.decode.trans h.footer.arranged
  have blank : (heads.map fun h => (⟨layerLayout.decode h, []⟩ : TerrainLayer)) =
      t.layers.map fun l => ⟨l.fields, []⟩ := by
    have same := congrArg (List.map fun fields => (⟨fields, []⟩ : TerrainLayer)) p.layers
    rwa [List.map_map, List.map_map] at same
  have run : loadAll.fill ({}, b) = (.ok (), (t, [])) := by
    rw [loadAll, p.file, fill_bind_of_ok (next_fill _ _ headed.length), fill_bind_of_ok (update_fill ..), header,
      h.counted, ← p.length_heads, fill_bind_of_ok (loadLayers_fill _ _ p.size), fill_bind_of_ok (fill_get _)]
    simp only [List.nil_append, blank]
    rw [fill_bind_of_ok (loadPixels_fill _ _ [] h.sized), ← List.append_nil foot,
      fill_bind_of_ok (next_fill _ _ footed.length), fill_bind_of_ok (update_fill ..), footer, h.flat]
    exact congrArg (fun patches => (Except.ok (), ({ t with patches := patches }, ([] : Bytes)))) h.patches.symm
  simp only [TerrainSheet.load, run]

end Pieces

end GameData.Texture.TerrainSheet
