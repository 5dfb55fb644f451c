import Mathlib
import GameData.Proofs.Bytes.Field
import GameData.Proofs.Texture.Completeness
import GameData.Proofs.Texture.Images

/-!
The conversion of textures to images.

The images are written one after the other, and nobody looks whether there is a file already. The bitmaps of one texture
never meet, since their suffixes differ. Textures that differ in their endings only do: they are converted to the same image,
of which the later one is left.
-/
namespace GameData

namespace Files

open Filling

namespace Tree

variable {t u v : Tree} {P : Place} {first second : List Place}

def IsFile (t : Tree) (p : Place) : Prop := ∃ c, t.get? p = some (.file c)

/-- The second tree has files where the first has some, and at the places. -/
def Gains (t u : Tree) (places : List Place) : Prop := ∀ p, u.IsFile p ↔ t.IsFile p ∨ p ∈ places

theorem Furnished.gains (furnished : t.Furnished u) : t.Gains u [] := by
  intro p
  simp only [List.not_mem_nil, or_false]
  apply exists_congr
  intro c
  exact ⟨furnished.files p c, furnished.kept p _⟩

theorem Gains.trans (one : t.Gains u first) (two : u.Gains v second) : t.Gains v (first ++ second) := by
  intro p
  rw [two p, one p, List.mem_append, or_assoc]

theorem gains_put (ne : P ≠ []) (c : Content) : t.Gains (t.put P (.file c)) [P] := by
  intro p
  rw [IsFile, IsFile, get?_put ne, List.mem_singleton]
  by_cases here : p = P
  · rw [if_pos here]
    exact iff_of_true ⟨c, rfl⟩ (.inr here)
  · rw [if_neg here]
    exact (or_iff_left here).symm

end Tree

namespace Shell

/-- A file that has been written stands in a folder and is none itself. -/
theorem write_text_eq_ok {s s' : Session} {P : Place} (ne : P ≠ []) (names : ∀ n ∈ P, IsName n) {c : Content}
    (run : (write (Tree.Place.text P) c).fill s = (.ok (), s')) :
    s.tree.get? P ≠ some .folder ∧ s.tree.get? P.dropLast = some .folder ∧
      s' = { s with tree := s.tree.put P (.file c) } := by
  rcases write_cases (Tree.Place.text P) c s with ⟨f, failed⟩ | ⟨p, way, free, home, done⟩
  · rw [failed] at run
    cases run
  · rw [done] at run
    cases run
    rw [spot_text ne names] at way
    obtain ⟨rfl, _⟩ := Tree.eq_of_locate_text ne names way
    exact ⟨free, home, rfl⟩

theorem fill_say (line : String) (s : Session) :
    (say line).fill s = (.ok (), { s with printed := s.printed ++ line ++ "\n" }) := rfl

theorem makeFolderFor_eq_ok {s s' : Session} {path : String} (run : (makeFolderFor path).fill s = (.ok (), s'))
    (sound : s.tree.Sound) : s.tree.Furnished s'.tree := by
  have keeps := makeFolders_keeps s.tree (Path.folderName path) s (.refl sound)
  rw [makeFolderFor] at run
  rwa [run] at keeps

/-- A loop gains what its steps gain, as long as they keep the condition they need. -/
theorem gains_foldlM {α β : Type} {step : β → α → Shell β} {Q : Session → Prop} {xs : List α} (parts : α → List Place)
    (each : ∀ x ∈ xs, ∀ b s b' s', Q s → (step b x).fill s = (.ok b', s') → Q s' ∧ s.tree.Gains s'.tree (parts x))
    {b b' : β} {s s' : Session} (holds : Q s) (run : (xs.foldlM step b).fill s = (.ok b', s')) :
    Q s' ∧ s.tree.Gains s'.tree (xs.flatMap parts) := by
  induction xs generalizing b s with
  | nil =>
      cases run
      exact ⟨holds, fun p => by simp⟩
  | cons x xs ih =>
      obtain ⟨here, others⟩ := List.forall_mem_cons.mp each
      rw [List.foldlM_cons] at run
      obtain ⟨b₁, s₁, one, rest⟩ := fill_bind_eq_ok.mp run
      obtain ⟨holds, gains⟩ := here b s b₁ s₁ holds one
      obtain ⟨holds, more⟩ := ih others holds rest
      exact ⟨holds, gains.trans more⟩

theorem forM_eq_foldlM {α : Type} (f : α → Shell Unit) (xs : List α) : xs.forM f = xs.foldlM (fun _ x => f x) () := by
  induction xs with
  | nil => rfl
  | cons x xs ih =>
      change (f x >>= fun _ => xs.forM f) = _
      rw [ih]
      rfl

theorem gains_forM {α : Type} {f : α → Shell Unit} {Q : Session → Prop} {xs : List α} (place : α → Place)
    (each : ∀ x s s', Q s → (f x).fill s = (.ok (), s') → Q s' ∧ s.tree.Gains s'.tree [place x])
    {s s' : Session} (holds : Q s) (run : (xs.forM f).fill s = (.ok (), s')) :
    Q s' ∧ s.tree.Gains s'.tree (xs.map place) := by
  rw [forM_eq_foldlM] at run
  rw [List.map_eq_flatMap]
  exact gains_foldlM (fun x => [place x]) (fun x _ _ s _ s' => each x s s') holds run

end Shell

end Files

namespace Texture

open Batch.Textures

theorem Targa.encode_of_fits {t : Targa} (fits : ∀ x ∈ t.header, x.1.least ≤ x.2 ∧ x.2 < x.1.limit)
    (signed : t.signature.length = 18) (ext : t.extOffset = 0) (dev : t.devOffset = 0) : ∃ data, t.encode = .ok data := by
  have head : t.header.mapM (fun x => x.1.packInt x.2) = .ok (t.header.map fun x => Bytes.ofInt x.1.width x.2) :=
    mapM_eq_ok_map fun x mem => Field.packInt_eq_ok (fits x mem).1 (fits x mem).2
  have zero : Field.u32.packInt 0 = .ok (Bytes.ofInt 4 0) := by rfl
  refine Exists.imp (fun data done => bind_eq_ok.mpr ⟨_, head, done⟩) ?_
  rw [if_neg (by rw [signed]; decide), ext, dev, zero]
  exact ⟨_, rfl⟩

/-- The image of a bitmap can be written if it has room for the sides. -/
theorem targa_encodes {f : Facts} {d : Nat} (known : depth f.mode = .ok d) {width height : Nat} (wide : width < 65536)
    (high : height < 65536) (bitmap : Bytes) :
    ∃ image data, targa f width height bitmap = .ok image ∧ image.encode = .ok data := by
  obtain ⟨a, found, deep, bits⟩ := alpha_eq_ok known
  have made : targa f width height bitmap =
      .ok ((({ imageType := 2 } : Targa).setLines bitmap width height (d * 8)).setDescriptor true true a) :=
    bind_eq_ok.mpr ⟨d, known, bind_eq_ok.mpr ⟨a, found, rfl⟩⟩
  have descriptor : 0 ≤ Targa.bitOr (Targa.bitOr (Targa.bitOr 0 a) 16) 32 ∧
      Targa.bitOr (Targa.bitOr (Targa.bitOr 0 a) 16) 32 < 256 := by
    rcases bits with rfl | rfl
    · decide
    · decide
  have byte : Field.u8.least = 0 ∧ Field.u8.limit = 256 := by decide
  have short : Field.u16.least = 0 ∧ Field.u16.limit = 65536 := by decide
  have signed : (Bytes.ofText "TRUEVISION-XFILE." ++ [0]).length = 18 := by decide +kernel
  obtain ⟨data, encoded⟩ := Targa.encode_of_fits
    (t := (({ imageType := 2 } : Targa).setLines bitmap width height (d * 8)).setDescriptor true true a) (by
      simp only [Targa.header, Targa.setDescriptor, Targa.setLines, List.forall_mem_cons, byte, short, if_true]
      simp only [descriptor, List.not_mem_nil, false_imp_iff, implies_true, and_true]
      omega) signed rfl rfl
  exact ⟨_, data, made, encoded⟩

theorem bitmapPlan_le (f : Facts) (count i : Nat) :
    (bitmapPlan f count i).2.1 ≤ f.width ∧ (bitmapPlan f count i).2.2 ≤ f.height := by
  rw [bitmapPlan]
  split
  · exact ⟨Nat.le_refl _, Nat.le_refl _⟩
  · split
    · exact ⟨Nat.div_le_self _ _, Nat.div_le_self _ _⟩
    · exact ⟨Nat.le_refl _, Nat.le_refl _⟩

theorem Loop.image_encodes {data rest : Bytes} {t : Loop} (read : decode data = .ok (t, rest))
    (wide : (facts t).width < 65536) (high : (facts t).height < 65536) {i : Nat} {b : Bytes}
    (place : t.bitmaps[i]? = some b) : ∃ image file, t.image i b = .ok image ∧ image.encode = .ok file := by
  obtain ⟨⟨d, known⟩, _⟩ := known_of_decode read place
  obtain ⟨narrower, lower⟩ := bitmapPlan_le (facts t) t.bitmaps.length i
  exact targa_encodes known (Nat.lt_of_le_of_lt narrower wide) (Nat.lt_of_le_of_lt lower high) b

/-- A texture of several bitmaps is a sheet or has levels. -/
theorem Loop.versions_of_decode {data rest : Bytes} {t : Loop} (read : decode data = .ok (t, rest)) :
    t.bitmaps.length ≤ 1 ∨ (facts t).version = 7 ∨ (facts t).version = 9 ∨ (facts t).version = 11 := by
  rcases decode_eq_ok read with ⟨f, rfl, version, accepted⟩ | ⟨s, rfl, version, accepted⟩ | ⟨s, rfl, version, accepted⟩ |
    ⟨l, rfl, version, accepted⟩
  · obtain ⟨_, _, d, _, only⟩ := readFlat_eq_ok accepted
    left
    rw [bitmaps, only]
    exact Nat.le_refl 1
  · exact .inr (.inl ((readSheet_eq_ok accepted).1.trans version))
  · exact .inr (.inr (.inl ((readSheet_eq_ok accepted).1.trans version)))
  · exact .inr (.inr (.inr ((readLevels_eq_ok accepted).2.1.trans version)))

end Texture

namespace Batch.Textures

open Files Filling Texture

def textureAt (t : Tree) (p : Place) : Option Loop :=
  match t.get? p with
  | some (.file c) => (Loop.decode c.bytes).toOption.map Prod.fst
  | _ => none

/-- The places of the images of the texture at a route below `S`, one for each bitmap. -/
def images (t : Tree) (S D rel : Place) : List Place :=
  match textureAt t (S ++ rel) with
  | some texture => (List.range texture.bitmaps.length).map fun i => imagePlace D rel (suffix texture i)
  | none => []

theorem images_of_texture {t : Tree} {S rel : Place} {texture : Loop} (here : textureAt t (S ++ rel) = some texture)
    (D : Place) :
    images t S D rel = (List.range texture.bitmaps.length).map fun i => imagePlace D rel (suffix texture i) := by
  rw [images, here]

def bitmapCount (t : Tree) (p : Place) : Nat :=
  match textureAt t p with
  | some texture => texture.bitmaps.length
  | none => 0

theorem length_images (t : Tree) (S D rel : Place) : (images t S D rel).length = bitmapCount t (S ++ rel) := by
  rw [images, bitmapCount]
  split
  · rw [List.length_map, List.length_range]
  · rfl

def allImages (t : Tree) (S D : Place) : List Place := (t.sources isTexture S).flatMap (images t S D)

def totalBitmaps (t : Tree) (S : Place) : Nat := ((t.sources isTexture S).map fun rel => bitmapCount t (S ++ rel)).sum

theorem length_allImages (t : Tree) (S D : Place) : (allImages t S D).length = totalBitmaps t S := by
  simp only [allImages, totalBitmaps, List.length_flatMap, length_images]

def storeBitmap (texture : Loop) (target source : String) (x : Bytes × Nat) : Shell Unit := do
  let image ← attempt (texture.image x.2 x.1)
  let file := replaceAll target (lastFour source) (suffix texture x.2)
  Shell.writeBytes file []
  let data ← attempt image.encode
  Shell.writeBytes file data

def convertFile (r : Request) (n : Nat) (p : String) : Shell Nat := do
  let texture ← Terrain.readTexture p
  let target ← r.moved p
  Shell.say target
  Shell.makeFolderFor target
  (Terrain.numbered texture.bitmaps).forM (storeBitmap texture target p)
  pure (n + 1)

theorem convert_eq (r : Request) : convert r = (do
    let n ← r.foldSources ["*.tex", "*.spr", "*.pic"] 0 (convertFile r)
    Shell.say s!"Converted: {n}") := rfl

theorem fill_storeBitmap {texture : Loop} {target source : String} {x : Bytes × Nat} {P : Place}
    (names : ∀ n ∈ P, IsName n) (file : replaceAll target (lastFour source) (suffix texture x.2) = Tree.Place.text P)
    {image : Targa} {data : Bytes} (made : texture.image x.2 x.1 = .ok image) (encoded : image.encode = .ok data)
    {s : Session} (sound : s.tree.Sound) (free : s.tree.get? P ≠ some .folder)
    (home : s.tree.get? P.dropLast = some .folder) :
    (storeBitmap texture target source x).fill s = (.ok (), { s with tree := s.tree.put P (.file (.raw data)) }) := by
  rw [storeBitmap, made, file]
  refine (fill_bind_of_ok (fill_attempt _ _) _).trans ?_
  rw [encoded]
  exact Shell.store_text sound names home free data

theorem storeBitmap_eq_ok {texture : Loop} {target source : String} {x : Bytes × Nat} {P : Place} (ne : P ≠ [])
    (names : ∀ n ∈ P, IsName n) (file : replaceAll target (lastFour source) (suffix texture x.2) = Tree.Place.text P)
    {s s' : Session} (run : (storeBitmap texture target source x).fill s = (.ok (), s')) :
    ∃ data, s.tree.get? P ≠ some .folder ∧ s.tree.get? P.dropLast = some .folder ∧
      s' = { s with tree := s.tree.put P (.file (.raw data)) } := by
  rw [storeBitmap] at run
  obtain ⟨image, s₁, made, run⟩ := fill_bind_eq_ok.mp run
  rw [fill_attempt, Prod.mk.injEq] at made
  obtain ⟨_, rfl⟩ := made
  rw [file] at run
  obtain ⟨_, s₂, opened, run⟩ := fill_bind_eq_ok.mp run
  obtain ⟨free, home, rfl⟩ := Shell.write_text_eq_ok ne names opened
  obtain ⟨data, s₃, encoded, run⟩ := fill_bind_eq_ok.mp run
  rw [fill_attempt, Prod.mk.injEq] at encoded
  obtain ⟨_, rfl⟩ := encoded
  obtain ⟨_, _, rfl⟩ := Shell.write_text_eq_ok ne names run
  exact ⟨data, free, home, by rw [Tree.put_put]⟩

theorem textureAt_eq_some {t : Tree} {p : Place} {c : Content} (found : t.get? p = some (.file c)) {texture : Loop} :
    textureAt t p = some texture ↔ ∃ rest, Loop.decode c.bytes = .ok (texture, rest) := by
  have opened : textureAt t p = (Loop.decode c.bytes).toOption.map Prod.fst := by rw [textureAt, found]
  rw [opened]
  cases Loop.decode c.bytes with
  | error f => simp [Except.toOption]
  | ok read =>
      obtain ⟨other, rest⟩ := read
      simp [Except.toOption, eq_comm]

theorem map_numbered {α β : Type} (items : List α) (f : Nat → β) :
    (Terrain.numbered items).map (fun x => f x.2) = (List.range items.length).map f := by
  have second : (Terrain.numbered items).map Prod.snd = List.range items.length := List.map_snd_zip (by simp)
  rw [← second, List.map_map]
  rfl

theorem getElem?_of_mem_numbered {α : Type} {items : List α} {x : α × Nat} (mem : x ∈ Terrain.numbered items) :
    items[x.2]? = some x.1 := by
  obtain ⟨i, place⟩ := List.mem_iff_getElem?.mp mem
  rw [Terrain.numbered, List.getElem?_zip_eq_some] at place
  obtain ⟨item, number⟩ := place
  obtain ⟨_, same⟩ := List.getElem?_eq_some_iff.mp number
  rw [List.getElem_range] at same
  rwa [← same]

theorem not_isTexture {name : String} (ends : ".tga".toList <:+ name.toList) : isTexture name = false := by
  refine Pattern.oneAccepts_eq_false endings (by rfl) ?_ ends ?_
  · simp [endings, Pattern.Plain]
  · decide

section Visits

variable {r : Request} {t : Tree} {src : String} {S D rel : Place} (mirrors : r.Mirrors t src S D)
include mirrors

theorem fill_readTexture {s : Session} (steady : Tree.Steady isTexture S t s.tree) {name : String} {c : Content}
    (last : rel.getLast? = some name) (agrees : isTexture name = true) (found : t.get? (S ++ rel) = some (.file c)) :
    (∀ texture rest, Loop.decode c.bytes = .ok (texture, rest) →
      ∃ out, (Terrain.readTexture (pathBelow src rel)).fill s = (.ok texture, { s with printed := out })) ∧
    ∀ f, Loop.decode c.bytes = .error f → (Terrain.readTexture (pathBelow src rel)).fill s = (.error f, s) := by
  rw [Terrain.readTexture, fill_bind_of_ok (mirrors.fill_readBytes (steady.spared last agrees) found)]
  constructor
  · intro texture rest read
    rw [Loop.load, read]
    exact ⟨_, rfl⟩
  · intro f failed
    rw [Loop.load, failed]
    rfl

/-- A bitmap that has been stored is at the place of its image, where no walk looks for a texture. -/
theorem storeBitmap_gains (source : t.IsSource isTexture S rel) {texture : Loop} (x : Bytes × Nat) {s s' : Session}
    (steady : Tree.Steady isTexture S t s.tree)
    (run : (storeBitmap texture (Tree.Place.text (D ++ rel)) (pathBelow src rel) x).fill s = (.ok (), s')) :
    Tree.Steady isTexture S t s'.tree ∧ s.tree.Gains s'.tree [imagePlace D rel (suffix texture x.2)] := by
  have own := mirrors.sound.isName_of_isSource source
  have isSuffix := isSuffix_suffix texture x.2
  have names := isName_imagePlace source (mirrors.names_append own) isSuffix
  obtain ⟨image, last, ends⟩ := imagePlace_last (D := D) source isSuffix
  have ne : imagePlace D rel (suffix texture x.2) ≠ [] := by
    intro none
    rw [none] at last
    cases last
  obtain ⟨data, free, home, rfl⟩ := storeBitmap_eq_ok ne names
    (replaceAll_moved source mirrors.src_ne own (suffix texture x.2)) run
  refine ⟨steady.put names free home ?_ _, Tree.gains_put ne _⟩
  intro other name final agrees same
  rw [← same, List.getLast?_append, final] at last
  cases last
  rw [not_isTexture ends] at agrees
  cases agrees

/-- A file that has been converted held a texture. Its images were written, and no other files. -/
theorem convertFile_eq_ok (source : t.IsSource isTexture S rel) {s s' : Session}
    (steady : Tree.Steady isTexture S t s.tree) {n n' : Nat}
    (run : (convertFile r n (pathBelow src rel)).fill s = (.ok n', s')) :
    Tree.Steady isTexture S t s'.tree ∧ s.tree.Gains s'.tree (images t S D rel) := by
  have own := mirrors.sound.isName_of_isSource source
  obtain ⟨name, c, last, agrees, found⟩ := id source
  obtain ⟨loads, fails⟩ := fill_readTexture mirrors steady last agrees found
  rw [convertFile] at run
  cases read : Loop.decode c.bytes with
  | error f =>
      rw [fill_bind_of_error (fails f read)] at run
      cases run
  | ok pair =>
      obtain ⟨texture, rest⟩ := pair
      obtain ⟨out, loaded⟩ := loads texture rest read
      have here : textureAt t (S ++ rel) = some texture := (textureAt_eq_some found).mpr ⟨rest, read⟩
      rw [fill_bind_of_ok loaded, fill_bind_of_ok (mirrors.fill_moved source.ne_nil own _),
        fill_bind_of_ok (Shell.fill_say _ _)] at run
      obtain ⟨⟨⟩, s₂, made, run⟩ := fill_bind_eq_ok.mp run
      have furnished := Shell.makeFolderFor_eq_ok made steady.sound
      obtain ⟨⟨⟩, s₃, stored, run⟩ := fill_bind_eq_ok.mp run
      cases run
      have each : ∀ x s s', Tree.Steady isTexture S t s.tree →
          (storeBitmap texture (Tree.Place.text (D ++ rel)) (pathBelow src rel) x).fill s = (.ok (), s') →
          Tree.Steady isTexture S t s'.tree ∧ s.tree.Gains s'.tree [imagePlace D rel (suffix texture x.2)] :=
        fun x s s' => storeBitmap_gains mirrors source x
      have steady' := steady.furnished furnished
      obtain ⟨steady, gains⟩ := Shell.gains_forM (Q := fun s => Tree.Steady isTexture S t s.tree)
        (fun x : Bytes × Nat => imagePlace D rel (suffix texture x.2)) each steady' stored
      rw [map_numbered texture.bitmaps fun i => imagePlace D rel (suffix texture i)] at gains
      refine ⟨steady, ?_⟩
      rw [images_of_texture here]
      exact furnished.gains.trans gains

theorem convertFile_spares :
    Shell.Spares isTexture S src t (convertFile r) fun _ s => Tree.Steady isTexture S t s.tree := by
  refine .of_steady mirrors.sound (fun _ => .refl _ _ mirrors.sound) (fun _ steady => steady) ?_
  intro n rel s n' s' source steady run
  exact (convertFile_eq_ok mirrors source steady run).1

theorem fill_visits (out : String) :
    (r.foldSources ["*.tex", "*.spr", "*.pic"] 0 (convertFile r)).fill ⟨t, out⟩ =
      ((t.sources isTexture S).foldlM (fun n rel => convertFile r n (pathBelow src rel)) 0).fill ⟨t, out⟩ :=
  mirrors.fill_foldSources (convertFile_spares mirrors) 0

/-- The files after a conversion are those before and the images of all textures. -/
theorem convert_gains {out : String} {after : Session} (run : (convert r).fill ⟨t, out⟩ = (.ok (), after)) :
    after.tree.Sound ∧ t.Gains after.tree (allImages t S D) := by
  rw [convert_eq] at run
  obtain ⟨n, s, visits, said⟩ := fill_bind_eq_ok.mp run
  cases said
  rw [fill_visits mirrors] at visits
  have each : ∀ rel ∈ t.sources isTexture S, ∀ n s n' s', Tree.Steady isTexture S t s.tree →
      (convertFile r n (pathBelow src rel)).fill s = (.ok n', s') →
      Tree.Steady isTexture S t s'.tree ∧ s.tree.Gains s'.tree (images t S D rel) := by
    intro rel mem n s n' s' steady run
    exact convertFile_eq_ok mirrors (mirrors.sound.mem_sources_iff.mp mem) steady run
  obtain ⟨steady, gains⟩ := Shell.gains_foldlM (Q := fun s => Tree.Steady isTexture S t s.tree) (images t S D) each
    (.refl _ _ mirrors.sound) visits
  exact ⟨steady.sound, gains⟩

end Visits

section Counting

def isTarga : String → Bool := Pattern.accepts "*.tga"

theorem isTarga_iff (name : String) : isTarga name = true ↔ ".tga".toList <:+ name.toList := by
  have star : "*.tga" = "*" ++ ".tga" := by rfl
  rw [isTarga, star]
  refine Pattern.accepts_star ?_ name
  simp [Pattern.Plain]

def imageFiles (t : Tree) (D : Place) : List Place := t.sources isTarga D

/-- Some of the members of a list, each once, are as many as the list has only if these are all and differ. -/
theorem length_eq_iff {α : Type} {xs ys : List α} {p : α → Prop} (nodup : xs.Nodup) (mem : ∀ x, x ∈ xs ↔ x ∈ ys ∧ p x) :
    xs.length = ys.length ↔ ys.Nodup ∧ ∀ y ∈ ys, p y := by
  constructor
  · intro same
    have fewer : xs.Subperm ys := nodup.subperm fun x inside => ((mem x).mp inside).1
    have all := fewer.perm_of_length_le (Nat.le_of_eq same.symm)
    exact ⟨all.nodup_iff.mp nodup, fun y inside => ((mem y).mp (all.mem_iff.mpr inside)).2⟩
  · rintro ⟨differ, every⟩
    refine ((List.perm_ext_iff_of_nodup nodup differ).mpr fun x => ?_).length_eq
    rw [mem]
    exact and_iff_left_of_imp (every x)

variable {t u : Tree} {S D : Place}

theorem mem_images {rel P : Place} (mem : P ∈ images t S D rel) :
    ∃ texture i, textureAt t (S ++ rel) = some texture ∧ i < texture.bitmaps.length ∧
      P = imagePlace D rel (suffix texture i) := by
  rw [images] at mem
  split at mem
  · rename_i texture found
    obtain ⟨i, inside, rfl⟩ := List.mem_map.mp mem
    exact ⟨texture, i, found, List.mem_range.mp inside, rfl⟩
  · cases mem

/-- The bitmaps of one texture go to different places. -/
theorem nodup_images {rel : Place} (source : t.IsSource isTexture S rel) (D : Place) : (images t S D rel).Nodup := by
  obtain ⟨_, c, _, _, found⟩ := id source
  rw [images]
  split
  case h_1 texture here =>
    obtain ⟨rest, read⟩ := (textureAt_eq_some found).mp here
    refine List.Nodup.map_on ?_ List.nodup_range
    intro i first j second same
    exact suffix_inj (List.mem_range.mp first) (List.mem_range.mp second) (Loop.versions_of_decode read)
      (imagePlace_inj source same)
  case h_2 => exact List.nodup_nil

/-- Different textures have no image in common. -/
def Apart (t : Tree) (S D : Place) : Prop :=
  ∀ rel ∈ t.sources isTexture S, ∀ other ∈ t.sources isTexture S, rel ≠ other →
    ∀ P ∈ images t S D rel, P ∉ images t S D other

theorem nodup_allImages_iff (sound : t.Sound) : (allImages t S D).Nodup ↔ Apart t S D := by
  rw [allImages, List.nodup_flatMap]
  constructor
  · rintro ⟨_, disjoint⟩ rel first other second ne P mem also
    have symmetric : Std.Symm (Function.onFun List.Disjoint (images t S D)) := ⟨fun _ _ apart => apart.symm⟩
    exact disjoint.forall first second ne mem also
  · intro apart
    refine ⟨fun rel mem => nodup_images (sound.mem_sources_iff.mp mem) D, ?_⟩
    refine (sound.nodup_sources isTexture S).pairwise_of_forall_ne ?_
    intro rel first other second ne P mem also
    exact apart rel first other second ne P mem also

theorem mem_imageFiles_iff (sound : t.Sound) (after : u.Sound) (gains : t.Gains u (allImages t S D))
    (empty : ∀ q, q ≠ [] → t.get? (D ++ q) = none) {rel : Place} :
    rel ∈ imageFiles u D ↔ D ++ rel ∈ allImages t S D := by
  rw [imageFiles, after.mem_sources_iff]
  constructor
  · intro image
    obtain ⟨_, c, _, _, found⟩ := id image
    refine ((gains (D ++ rel)).mp ⟨c, found⟩).resolve_left ?_
    rintro ⟨d, there⟩
    rw [empty rel image.ne_nil] at there
    cases there
  · intro mem
    obtain ⟨c, found⟩ := (gains (D ++ rel)).mpr (.inr mem)
    obtain ⟨other, source, inside⟩ := List.mem_flatMap.mp mem
    obtain ⟨texture, i, _, _, same⟩ := mem_images inside
    have source := sound.mem_sources_iff.mp source
    obtain ⟨name, last, ends⟩ := imagePlace_last (D := D) source (isSuffix_suffix texture i)
    have longer : rel ≠ [] := by
      rintro rfl
      have lengths := congrArg List.length same
      rw [imagePlace, List.length_map, List.length_append, List.length_append, List.length_nil] at lengths
      exact source.ne_nil (List.length_eq_zero_iff.mp (by omega))
    rw [← same, List.getLast?_append_of_ne_nil _ longer] at last
    refine ⟨name, c, last, ?_, found⟩
    exact (isTarga_iff name).mpr ends

/-- There are as many images below the target folder as there are bitmaps if none of them was put where one of another
texture is, and none elsewhere. -/
theorem length_imageFiles_iff (sound : t.Sound) (after : u.Sound) (gains : t.Gains u (allImages t S D))
    (empty : ∀ q, q ≠ [] → t.get? (D ++ q) = none) :
    (imageFiles u D).length = totalBitmaps t S ↔ Apart t S D ∧ ∀ P ∈ allImages t S D, D <+: P := by
  have nodup : ((imageFiles u D).map (D ++ ·)).Nodup :=
    (after.nodup_sources isTarga D).map fun a b same => List.append_cancel_left same
  have members (P : Place) : P ∈ (imageFiles u D).map (D ++ ·) ↔ P ∈ allImages t S D ∧ D <+: P := by
    rw [List.mem_map]
    constructor
    · rintro ⟨rel, mem, rfl⟩
      exact ⟨(mem_imageFiles_iff sound after gains empty).mp mem, List.prefix_append D rel⟩
    · rintro ⟨mem, rel, rfl⟩
      exact ⟨rel, (mem_imageFiles_iff sound after gains empty).mpr mem, rfl⟩
  have counted := length_eq_iff nodup members
  rwa [List.length_map, length_allImages, nodup_allImages_iff sound] at counted

end Counting

section Finishing

/-- Every file below `S` that is taken for a texture is one, and images have room for its sides. -/
def Loadable (t : Tree) (S : Place) : Prop :=
  ∀ rel ∈ t.sources isTexture S, ∃ texture, textureAt t (S ++ rel) = some texture ∧
    (facts texture).width < 65536 ∧ (facts texture).height < 65536

/-- Every image stands in the folder of its texture, and none stands where a folder has to be. -/
def Roomy (t : Tree) (S D : Place) : Prop :=
  ∀ rel ∈ t.sources isTexture S, ∀ P ∈ images t S D rel,
    P.dropLast = D ++ rel.dropLast ∧ ∀ other ∈ t.sources isTexture S, ¬ P <+: D ++ other.dropLast

/-- Folders can be made for all textures and files for all images. -/
structure Open (t : Tree) (S D : Place) (u : Tree) : Prop where
  clear : ∀ rel ∈ t.sources isTexture S, ∀ p c, p <+: D ++ rel.dropLast → u.get? p ≠ some (.file c)
  free : ∀ P ∈ allImages t S D, u.get? P ≠ some .folder

variable {t u : Tree} {S D : Place}

theorem Roomy.not_front (roomy : Roomy t S D) {P : Place} (mem : P ∈ allImages t S D) {rel : Place}
    (source : rel ∈ t.sources isTexture S) : ¬ P <+: D ++ rel.dropLast := by
  obtain ⟨own, inside, image⟩ := List.mem_flatMap.mp mem
  exact (roomy own inside P image).2 rel source

theorem Roomy.opens (roomy : Roomy t S D) (empty : ∀ q, q ≠ [] → t.get? (D ++ q) = none)
    (way : ∀ p c, p <+: D → t.get? p ≠ some (.file c)) : Open t S D t := by
  constructor
  · intro rel _ p c front
    rcases List.prefix_or_prefix_of_prefix front (List.prefix_append D _) with before | ⟨q, rfl⟩
    · exact way p c before
    · by_cases here : q = []
      · subst here
        exact way _ c (by rw [List.append_nil])
      · rw [empty q here]
        simp
  · intro P mem
    obtain ⟨rel, source, image⟩ := List.mem_flatMap.mp mem
    obtain ⟨home, outside⟩ := roomy rel source P image
    have ne : P ≠ [] := by
      rintro rfl
      exact outside rel source List.nil_prefix
    rw [← List.dropLast_append_getLast ne, home, List.append_assoc, empty _ (by simp)]
    simp

theorem Open.addFolders (opens : Open t S D u) (roomy : Roomy t S D) {rel : Place}
    (source : rel ∈ t.sources isTexture S) : Open t S D (u.addFolders (D ++ rel.dropLast)) := by
  constructor
  · intro other inside p c front
    rw [Tree.get?_addFolders]
    split
    · simp
    · exact opens.clear other inside p c front
  · intro P mem
    rw [Tree.get?_addFolders, if_neg (roomy.not_front mem source)]
    exact opens.free P mem

theorem Open.put (opens : Open t S D u) (roomy : Roomy t S D) {P : Place} (ne : P ≠ []) (mem : P ∈ allImages t S D)
    (c : Content) : Open t S D (u.put P (.file c)) := by
  constructor
  · intro rel source p d front
    rw [Tree.get?_put_of_ne ne]
    · exact opens.clear rel source p d front
    · rintro rfl
      exact roomy.not_front mem source front
  · intro Q other
    rw [Tree.get?_put ne]
    split
    · simp
    · exact opens.free Q other

section Steps

variable {r : Request} {src : String} (mirrors : r.Mirrors t src S D) (roomy : Roomy t S D) {rel : Place}
  (source : rel ∈ t.sources isTexture S) {texture : Loop} (here : textureAt t (S ++ rel) = some texture)
include mirrors roomy source here

theorem fill_storeBitmaps
    (encodes : ∀ x ∈ Terrain.numbered texture.bitmaps, ∃ image data, texture.image x.2 x.1 = .ok image ∧
      image.encode = .ok data) {s : Session} (steady : Tree.Steady isTexture S t s.tree) (opens : Open t S D s.tree)
    (home : s.tree.get? (D ++ rel.dropLast) = some .folder) :
    ∃ s', ((Terrain.numbered texture.bitmaps).forM
        (storeBitmap texture (Tree.Place.text (D ++ rel)) (pathBelow src rel))).fill s = (.ok (), s') ∧
      Tree.Steady isTexture S t s'.tree ∧ Open t S D s'.tree := by
  have isSource := mirrors.sound.mem_sources_iff.mp source
  have own := mirrors.sound.isName_of_isSource isSource
  have each : ∀ done x rest, Terrain.numbered texture.bitmaps = done ++ x :: rest → ∀ (b : Unit) (s : Session),
      (Tree.Steady isTexture S t s.tree ∧ Open t S D s.tree ∧ s.tree.get? (D ++ rel.dropLast) = some .folder) →
      ∃ b' s', (storeBitmap texture (Tree.Place.text (D ++ rel)) (pathBelow src rel) x).fill s = (.ok b', s') ∧
        Tree.Steady isTexture S t s'.tree ∧ Open t S D s'.tree ∧ s'.tree.get? (D ++ rel.dropLast) = some .folder := by
    rintro done x rest split - s ⟨steady, opens, home⟩
    obtain ⟨image, data, made, encoded⟩ := encodes x (by rw [split]; simp)
    have member : imagePlace D rel (suffix texture x.2) ∈ images t S D rel := by
      rw [images_of_texture here, ← map_numbered texture.bitmaps fun i => imagePlace D rel (suffix texture i), split]
      simp
    have among : imagePlace D rel (suffix texture x.2) ∈ allImages t S D := List.mem_flatMap.mpr ⟨rel, source, member⟩
    obtain ⟨folder, _⟩ := roomy rel source _ member
    have outside := roomy.not_front among source
    have names := isName_imagePlace isSource (mirrors.names_append own) (isSuffix_suffix texture x.2)
    have ne := Tree.ne_nil_of_get?_ne (opens.free _ among)
    have run := fill_storeBitmap names (replaceAll_moved isSource mirrors.src_ne own _) made encoded steady.sound
      (opens.free _ among) (by rw [folder]; exact home)
    refine ⟨(), _, run, (storeBitmap_gains mirrors isSource x steady run).1, opens.put roomy ne among _, ?_⟩
    rw [Tree.get?_put_of_ne ne]
    · exact home
    · intro same
      exact outside (by rw [same])
  rw [Shell.forM_eq_foldlM]
  obtain ⟨_, s', run, steady, opens, _⟩ := exists_foldlM (P := fun _ (s : Session) => Tree.Steady isTexture S t s.tree ∧
    Open t S D s.tree ∧ s.tree.get? (D ++ rel.dropLast) = some .folder) each () ⟨steady, opens, home⟩
  exact ⟨s', run, steady, opens⟩

omit here

/-- A texture is converted as long as there is room for its images. -/
theorem fill_convertFile (loadable : Loadable t S) (n : Nat) {s : Session} (steady : Tree.Steady isTexture S t s.tree)
    (opens : Open t S D s.tree) :
    ∃ n' s', (convertFile r n (pathBelow src rel)).fill s = (.ok n', s') ∧ Tree.Steady isTexture S t s'.tree ∧
      Open t S D s'.tree := by
  have isSource := mirrors.sound.mem_sources_iff.mp source
  have own := mirrors.sound.isName_of_isSource isSource
  obtain ⟨name, c, last, agrees, found⟩ := id isSource
  obtain ⟨texture, here, wide, high⟩ := loadable rel source
  obtain ⟨rest, read⟩ := (textureAt_eq_some found).mp here
  obtain ⟨out, loaded⟩ := (fill_readTexture mirrors steady last agrees found).1 texture rest read
  have clear := opens.clear rel source
  have furnished := steady.sound.addFolders (P := D ++ rel.dropLast)
    (mirrors.names_append fun n mem => own n (List.mem_of_mem_dropLast mem)) clear
  have encodes : ∀ x ∈ Terrain.numbered texture.bitmaps, ∃ image data, texture.image x.2 x.1 = .ok image ∧
      image.encode = .ok data := by
    intro x mem
    exact Loop.image_encodes read wide high (getElem?_of_mem_numbered mem)
  have home := Tree.get?_addFolders_self s.tree (D ++ rel.dropLast)
  have made (out : String) := mirrors.fill_makeFolderFor isSource.ne_nil own (s := ⟨s.tree, out⟩) steady.sound clear
  obtain ⟨s', stored, steady', opens'⟩ := fill_storeBitmaps mirrors roomy source here encodes
    (s := ⟨s.tree.addFolders (D ++ rel.dropLast), _⟩) (steady.furnished furnished) (opens.addFolders roomy source) home
  refine ⟨n + 1, s', ?_, steady', opens'⟩
  rw [convertFile, fill_bind_of_ok loaded, fill_bind_of_ok (mirrors.fill_moved isSource.ne_nil own _),
    fill_bind_of_ok (Shell.fill_say _ _), fill_bind_of_ok (made _), fill_bind_of_ok stored]
  rfl

end Steps

theorem convert_finishes {r : Request} {src : String} (mirrors : r.Mirrors t src S D) (roomy : Roomy t S D)
    (loadable : Loadable t S) (empty : ∀ q, q ≠ [] → t.get? (D ++ q) = none)
    (way : ∀ p c, p <+: D → t.get? p ≠ some (.file c)) (out : String) :
    ∃ after, (convert r).fill ⟨t, out⟩ = (.ok (), after) := by
  have each : ∀ done rel rest, t.sources isTexture S = done ++ rel :: rest → ∀ (n : Nat) (s : Session),
      (Tree.Steady isTexture S t s.tree ∧ Open t S D s.tree) →
      ∃ n' s', (convertFile r n (pathBelow src rel)).fill s = (.ok n', s') ∧ Tree.Steady isTexture S t s'.tree ∧
        Open t S D s'.tree := by
    rintro done rel rest split n s ⟨steady, opens⟩
    exact fill_convertFile mirrors roomy (by rw [split]; simp) loadable n steady opens
  obtain ⟨n, s, visits, _⟩ := exists_foldlM
    (P := fun _ (s : Session) => Tree.Steady isTexture S t s.tree ∧ Open t S D s.tree) each 0 (s := ⟨t, out⟩)
    ⟨.refl _ _ mirrors.sound, roomy.opens empty way⟩
  rw [← fill_visits mirrors] at visits
  rw [convert_eq, fill_bind_of_ok visits]
  exact ⟨_, rfl⟩

end Finishing

/-- A conversion into an empty folder writes the images of all textures and no other files. There are as many images in the
folder as there are bitmaps exactly when different textures have no image in common and all images are in the folder. The
conversion does finish if all textures can be loaded and every image goes to the folder of its texture, to where no folder
is. -/
theorem convert_loses_no_image_iff {r : Request} {t : Tree} {src : String} {S D : Place} (mirrors : r.Mirrors t src S D)
    (empty : ∀ q, q ≠ [] → t.get? (D ++ q) = none) (out : String) :
    (∀ after, (convert r).fill ⟨t, out⟩ = (.ok (), after) →
      t.Gains after.tree (allImages t S D) ∧
      ((imageFiles after.tree D).length = totalBitmaps t S ↔ Apart t S D ∧ ∀ P ∈ allImages t S D, D <+: P)) ∧
    (Loadable t S → Roomy t S D → (∀ p c, p <+: D → t.get? p ≠ some (.file c)) →
      ∃ after, (convert r).fill ⟨t, out⟩ = (.ok (), after)) := by
  constructor
  · intro after run
    obtain ⟨sound, gains⟩ := convert_gains mirrors run
    exact ⟨gains, length_imageFiles_iff mirrors.sound sound gains empty⟩
  · intro loadable roomy way
    exact convert_finishes mirrors roomy loadable empty way out

def pointSample : Bytes := Bytes.ofText "LOOP" ++ [2, 0, 0, 0] ++ Bytes.zeros 10 ++ [1, 0, 1, 0, 3, 0] ++ [1, 2, 3, 4]

/-- A texture of two levels, the first with four pixels. -/
def pyramidSample : Bytes :=
  Bytes.ofText "LOOP" ++ [11, 0, 0, 0, 2, 0, 0, 0] ++ Bytes.zeros 14 ++ [2, 0, 2, 0, 0, 0] ++ Bytes.zeros 10

def texturesSample : Tree :=
  ⟨[(["in"], .folder), (["in", "a.tex"], .file (.raw pointSample)), (["in", "b"], .folder),
    (["in", "b", "a.spr"], .file (.raw pyramidSample))]⟩

def texturesRequest : Request := { source := some "in", target := some "out" }

theorem convert_loses_no_image_iff_texturesSample :
    ∃ after, (convert texturesRequest).fill ⟨texturesSample, ""⟩ = (.ok (), after) ∧
      totalBitmaps texturesSample ["in"] = 3 ∧ (imageFiles after.tree ["out"]).length = 3 := by
  have mirrors : texturesRequest.Mirrors texturesSample "in" ["in"] ["out"] :=
    ⟨⟨by decide +kernel, by decide +kernel, by decide +kernel⟩, rfl, Tree.locate_name (by decide),
      ⟨"out", rfl, by decide +kernel⟩, by decide, by decide⟩
  have sources : texturesSample.sources isTexture ["in"] = [["a.tex"], ["b", "a.spr"]] := by decide +kernel
  have loadable : Loadable texturesSample ["in"] := by
    rw [Loadable, sources]
    intro rel mem
    rcases List.mem_pair.mp mem with rfl | rfl
    · exact ⟨.flat ⟨Bytes.ofText "LOOP", 2, 0, 0, 0, 1, 1, 3, [[1, 2, 3, 4]]⟩, by decide +kernel, by decide, by decide⟩
    · exact ⟨.levels ⟨Bytes.ofText "LOOP", 11, 2, 0, 0, 0, 0, 0, 2, 2, 0, [Bytes.zeros 8, Bytes.zeros 2]⟩,
        by decide +kernel, by decide, by decide⟩
  have roomy : Roomy texturesSample ["in"] ["out"] := by
    unfold Roomy
    decide +kernel
  have way : ∀ p c, p <+: ["out"] → texturesSample.get? p ≠ some (.file c) := by
    intro p c front there
    rcases List.prefix_cons_iff.mp front with rfl | ⟨q, rfl, rest⟩
    · cases there
    · cases List.prefix_nil.mp rest
      cases there
  have total : totalBitmaps texturesSample ["in"] = 3 := by decide +kernel
  obtain ⟨counts, finishes⟩ := convert_loses_no_image_iff mirrors (fun q _ => rfl) ""
  obtain ⟨after, run⟩ := finishes loadable roomy way
  have apart : Apart texturesSample ["in"] ["out"] := by
    unfold Apart
    decide +kernel
  refine ⟨after, run, total, ?_⟩
  rw [(counts after run).2.mpr ⟨apart, by decide +kernel⟩, total]

/-- Two textures that differ in their endings only. -/
def twinsSample : Tree :=
  ⟨[(["in"], .folder), (["in", "a.spr"], .file (.raw pointSample)), (["in", "a.tex"], .file (.raw pointSample))]⟩

/-- The image of the first is lost. -/
theorem convert_loses_image :
    ∃ after, (convert texturesRequest).fill ⟨twinsSample, ""⟩ = (.ok (), after) ∧
      totalBitmaps twinsSample ["in"] = 2 ∧ imageFiles after.tree ["out"] = [["a.tga"]] :=
  ⟨((convert texturesRequest).fill ⟨twinsSample, ""⟩).2, Prod.ext (by decide +kernel) rfl, by decide +kernel,
    by decide +kernel⟩

end Batch.Textures

end GameData
