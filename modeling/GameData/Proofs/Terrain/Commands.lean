import GameData.Terrain.Commands
import GameData.Proofs.Bytes.Words

/-!
Commands written and read back.

`Numbers` are the contents of a command that has a file form: plain numbers that fit their fields, the counts told by
the runs. What is read from a file is such a command, and so is, up to truth values, what can be written; between its
numbers and its bytes there is one way in each direction.
-/
namespace GameData.Terrain.Command

open Bytes

/-- The command with its truth values as numbers. -/
def plain (c : Command) : Command where
  groupCount := c.groupCount.plain
  label := c.label.plain
  firstCount := c.firstCount.plain
  secondCount := c.secondCount.plain
  groups := c.groups.map (·.map Value.plain)
  first := c.first.map Value.plain
  second := c.second.map Value.plain

/-- The count of the groups is their number, where it is a number at all. -/
def Counted (c : Command) : Prop := ∀ n : Int, c.groupCount.plain = .int n → n = c.groups.length

def Fits (f : Field) (n : Int) : Prop := f.least ≤ n ∧ n < f.limit

def IsGroup (g : List Int) : Prop := g.length = 4 ∧ ∀ n ∈ g, Fits .u8 n

/-- The numbers of a command, each of which fits its field. -/
structure Numbers where
  label : Int
  groups : List (List Int)
  first : List Int
  second : List Int
  fitCounts : ∀ n ∈ [(groups.length : Int), label, first.length, second.length], Fits .u16 n
  fitGroups : ∀ g ∈ groups, IsGroup g
  fitFirst : ∀ n ∈ first, Fits .u32 n
  fitSecond : ∀ n ∈ second, Fits .u32 n

namespace Numbers

variable (k : Numbers)

def counts : List Int := [k.groups.length, k.label, k.first.length, k.second.length]

def command : Command where
  groupCount := .int k.groups.length
  label := .int k.label
  firstCount := .int k.first.length
  secondCount := .int k.second.length
  groups := k.groups.map (·.map .int)
  first := k.first.map .int
  second := k.second.map .int

def head : Bytes := k.counts.flatMap (ofInt 2)

def body : Bytes :=
  k.groups.flatMap (fun g => g.flatMap (ofInt 1)) ++ (k.first.flatMap (ofInt 4) ++ k.second.flatMap (ofInt 4))

theorem length_head : k.head.length = 8 := length_flatMap_ofInt 2 _

theorem encode_command : k.command.encode = .ok (k.head ++ k.body) := by
  have head : Field.u16.packMany 4 (k.counts.map .int) = .ok k.head := Field.packMany_ints (by decide) rfl k.fitCounts
  have groups : (k.groups.map (·.map Value.int)).mapM (Field.u8.packMany 4) =
      .ok (k.groups.map fun g => g.flatMap (ofInt 1)) := by
    rw [List.mapM_map]
    exact mapM_eq_ok_map fun g mem => Field.packMany_ints (by decide) (k.fitGroups g mem).1 (k.fitGroups g mem).2
  have first : Field.u32.packMany k.first.length (k.first.map .int) = .ok (k.first.flatMap (ofInt 4)) :=
    Field.packMany_ints (by decide) rfl k.fitFirst
  have second : Field.u32.packMany k.second.length (k.second.map .int) = .ok (k.second.flatMap (ofInt 4)) :=
    Field.packMany_ints (by decide) rfl k.fitSecond
  change (Field.u16.packMany 4 (k.counts.map .int) >>= fun head =>
    (k.groups.map (·.map Value.int)).mapM (Field.u8.packMany 4) >>= fun groups =>
    Field.u32.packMany k.first.length (k.first.map .int) >>= fun first =>
    Field.u32.packMany k.second.length (k.second.map .int) >>= fun second =>
    .ok (head ++ groups.flatten ++ first ++ second)) = _
  rw [head, ok_bind, groups, ok_bind, first, ok_bind, second, ok_bind, ← List.flatMap_def, body]
  simp only [List.append_assoc]

end Numbers

theorem bytesOf_ofInt {n : Int} (fits : Fits .u8 n) : bytesOf (ofInt 1 n) = [.int n] := by
  have read : (ofLE (ofInt 1 n) : Int) = n := Field.unpackInt_ofInt (f := .u8) fits.1 fits.2
  obtain ⟨x, single⟩ : ∃ x, ofInt 1 n = [x] := List.length_eq_one_iff.mp (length_ofInt 1 n)
  rw [single] at read ⊢
  exact congrArg (fun n => [Value.int n]) read

theorem bytesOf_flatMap {g : List Int} (fits : ∀ n ∈ g, Fits .u8 n) : bytesOf (g.flatMap (ofInt 1)) = g.map .int := by
  induction g with
  | nil => rfl
  | cons n g ih =>
      obtain ⟨first, others⟩ := List.forall_mem_cons.mp fits
      have rest : bytesOf (ofInt 1 n ++ g.flatMap (ofInt 1)) = bytesOf (ofInt 1 n) ++ bytesOf (g.flatMap (ofInt 1)) :=
        List.map_append
      rw [List.flatMap_cons, rest, bytesOf_ofInt first, ih others, List.map_cons, List.singleton_append]

theorem readGroups_flatMap {gs : List (List Int)} (groups : ∀ g ∈ gs, IsGroup g) (rest : Bytes) :
    readGroups gs.length (gs.flatMap (fun g => g.flatMap (ofInt 1)) ++ rest) = .ok (gs.map (·.map .int), rest) := by
  induction gs with
  | nil => rfl
  | cons g gs ih =>
      obtain ⟨⟨four, fits⟩, others⟩ := List.forall_mem_cons.mp groups
      have length : (g.flatMap (ofInt 1)).length = 4 := by rw [length_flatMap_ofInt, four]
      rw [List.length_cons, readGroups, List.flatMap_cons, List.append_assoc, List.take_left' length,
        List.drop_left' length, exactly_eq_ok.mpr ⟨length, rfl⟩, ok_bind, ih others, ok_bind, bytesOf_flatMap fits]
      rfl

theorem readWords_flatMap {ns : List Int} (fits : ∀ n ∈ ns, Fits .u32 n) (rest : Bytes) :
    readWords ns.length (ns.flatMap (ofInt 4) ++ rest) = .ok (ns.map .int, rest) := by
  have length : (ns.flatMap (ofInt 4)).length = 4 * ns.length := length_flatMap_ofInt 4 ns
  have each : words (ns.flatMap (ofInt 4)) = ns.map .int := by
    rw [words, words_flatMap_ofInt (by decide), List.map_map]
    refine List.map_congr_left fun n mem => congrArg Value.int ?_
    exact Field.unpackInt_ofInt (f := .u32) (fits n mem).1 (fits n mem).2
  rw [readWords, List.take_left' length, List.drop_left' length, exactly_eq_ok.mpr ⟨length, rfl⟩, ok_bind, each]

theorem flatMap_ofInt_bytes (b : Bytes) : (b.map fun x => (x.toNat : Int)).flatMap (ofInt 1) = b := by
  induction b with
  | nil => rfl
  | cons x b ih =>
      have first : ofInt 1 (x.toNat : Int) = [x] := Field.ofInt_unpackInt (f := .u8) (b := [x]) rfl
      rw [List.map_cons, List.flatMap_cons, first, ih, List.singleton_append]

theorem readGroups_inv {count : Nat} {rest left : Bytes} {groups : List (List Value)}
    (h : readGroups count rest = .ok (groups, left)) : ∃ gs : List (List Int), groups = gs.map (·.map .int) ∧
      gs.length = count ∧ (∀ g ∈ gs, IsGroup g) ∧ rest = gs.flatMap (fun g => g.flatMap (ofInt 1)) ++ left := by
  induction count generalizing rest groups with
  | zero =>
      cases h
      exact ⟨[], rfl, rfl, List.forall_mem_nil _, rfl⟩
  | succ count ih =>
      obtain ⟨group, read, h⟩ := bind_eq_ok.mp h
      obtain ⟨length, rfl⟩ := exactly_eq_ok.mp read
      obtain ⟨⟨more, _⟩, later, h⟩ := bind_eq_ok.mp h
      cases h
      obtain ⟨gs, rfl, counted, isGroups, bytes⟩ := ih later
      have isGroup : IsGroup ((rest.take 4).map fun x => (x.toNat : Int)) := by
        refine ⟨by rw [List.length_map, length], fun n mem => ?_⟩
        obtain ⟨x, _, rfl⟩ := List.mem_map.mp mem
        exact ⟨Int.natCast_nonneg _, Int.ofNat_lt.mpr x.toNat_lt⟩
      refine ⟨_ :: gs, ?_, congrArg Nat.succ counted, List.forall_mem_cons.mpr ⟨isGroup, isGroups⟩, ?_⟩
      · rw [List.map_cons, List.map_map]
        rfl
      · rw [List.flatMap_cons, flatMap_ofInt_bytes, List.append_assoc, ← bytes, List.take_append_drop]

theorem readWords_inv {count : Nat} {rest left : Bytes} {vs : List Value}
    (h : readWords count rest = .ok (vs, left)) : ∃ ns : List Int, vs = ns.map .int ∧ ns.length = count ∧
      (∀ n ∈ ns, Fits .u32 n) ∧ rest = ns.flatMap (ofInt 4) ++ left := by
  obtain ⟨run, read, h⟩ := bind_eq_ok.mp h
  obtain ⟨length, rfl⟩ := exactly_eq_ok.mp read
  cases h
  refine ⟨(Bytes.words 4 (rest.take (4 * count))).map Int.ofNat, ?_, ?_, ?_, ?_⟩
  · rw [List.map_map]
    rfl
  · rw [List.length_map, length_words (by decide) length]
  · intro n mem
    obtain ⟨w, word, rfl⟩ := List.mem_map.mp mem
    exact ⟨Int.natCast_nonneg w, Int.ofNat_lt.mpr (words_lt word)⟩
  · rw [flatMap_ofInt_words (by decide) (by omega), List.take_append_drop]

theorem mapM_packMany_inv {groups : List (List Value)} {pieces : List Bytes}
    (h : groups.mapM (Field.u8.packMany 4) = .ok pieces) : ∃ gs : List (List Int),
      groups.map (·.map Value.plain) = gs.map (·.map .int) ∧ (∀ g ∈ gs, IsGroup g) ∧
      pieces.flatten = gs.flatMap fun g => g.flatMap (ofInt 1) := by
  induction groups generalizing pieces with
  | nil =>
      cases h
      exact ⟨[], rfl, List.forall_mem_nil _, rfl⟩
  | cons group groups ih =>
      obtain ⟨piece, rest, first, others, rfl⟩ := mapM_cons_eq_ok.mp h
      obtain ⟨g, plain, four, fits, rfl⟩ := Field.packMany_inv (by decide) first
      obtain ⟨gs, plains, isGroups, flat⟩ := ih others
      refine ⟨g :: gs, ?_, List.forall_mem_cons.mpr ⟨⟨four, fits⟩, isGroups⟩, ?_⟩
      · rw [List.map_cons, plain, plains, List.map_cons]
      · rw [List.flatten_cons, flat, List.flatMap_cons]
        rfl

theorem countOf_eq {v : Value} {n : Int} (h : v.plain = .int n) : countOf v = n.toNat := by
  cases v with
  | int m =>
      cases h
      rfl
  | bool b =>
      cases h
      cases b <;> rfl
  | _ => cases h

namespace Numbers

/-- Whatever can be written is, up to truth values, the command with some numbers, if its groups are counted right. -/
theorem of_encode {c : Command} {b : Bytes} (counted : c.Counted) (h : c.encode = .ok b) :
    ∃ k : Numbers, c.plain = k.command ∧ b = k.head ++ k.body := by
  obtain ⟨head, packed, h⟩ := bind_eq_ok.mp h
  obtain ⟨pieces, grouped, h⟩ := bind_eq_ok.mp h
  obtain ⟨first, firstPacked, h⟩ := bind_eq_ok.mp h
  obtain ⟨second, secondPacked, h⟩ := bind_eq_ok.mp h
  cases h
  obtain ⟨counts, plain, -, fits, rfl⟩ := Field.packMany_inv (by decide) packed
  obtain ⟨w, _, rfl, groupCount, plain⟩ := List.map_eq_cons_iff.mp plain.symm
  obtain ⟨l, _, rfl, label, plain⟩ := List.map_eq_cons_iff.mp plain
  obtain ⟨x, _, rfl, firstCount, plain⟩ := List.map_eq_cons_iff.mp plain
  obtain ⟨y, _, rfl, secondCount, plain⟩ := List.map_eq_cons_iff.mp plain
  cases List.map_eq_nil_iff.mp plain
  obtain ⟨gs, groups, isGroups, flat⟩ := mapM_packMany_inv grouped
  obtain ⟨ns, first, firstLength, firstFits, rfl⟩ := Field.packMany_inv (by decide) firstPacked
  obtain ⟨ms, second, secondLength, secondFits, rfl⟩ := Field.packMany_inv (by decide) secondPacked
  -- A run is as long as its count says, and a count that fits its field is not negative.
  have groupLength : w = gs.length := by
    have same := congrArg List.length groups
    rw [List.length_map, List.length_map] at same
    rw [← same]
    exact counted w groupCount.symm
  have positive : ∀ n ∈ [w, l, x, y], 0 ≤ n := fun n mem => (fits n mem).1
  have firstLength : x = ns.length := by
    rw [firstLength, countOf_eq firstCount.symm, Int.toNat_of_nonneg (positive x (by simp))]
  have secondLength : y = ms.length := by
    rw [secondLength, countOf_eq secondCount.symm, Int.toNat_of_nonneg (positive y (by simp))]
  subst groupLength firstLength secondLength
  refine ⟨⟨l, gs, ns, ms, fits, isGroups, firstFits, secondFits⟩, ?_, ?_⟩
  · rw [Command.plain, ← groupCount, ← label, ← firstCount, ← secondCount, groups, first, second]
    rfl
  · rw [flat, List.append_assoc, List.append_assoc]
    rfl

/-- The head and the runs of a command are read back, whatever follows them. -/
theorem readBody_command (k : Numbers) (rest : Bytes) : readBody k.head (k.body ++ rest) = .ok (k.command, rest) := by
  have count : ∀ (i : Nat) (n : Int), k.counts[i]? = some n → (ofLE (slice k.head (2 * i) 2) : Int) = n := by
    intro i n given
    obtain ⟨low, high⟩ := k.fitCounts n (List.mem_of_getElem? given)
    rw [head, slice_flatMap_ofInt 2 given]
    exact Field.unpackInt_ofInt (f := .u16) low high
  have groupCount : k.head.u16 0 = k.groups.length := Int.natCast_inj.mp (count 0 _ rfl)
  have label : (k.head.u16 2 : Int) = k.label := count 1 _ rfl
  have firstCount : k.head.u16 4 = k.first.length := Int.natCast_inj.mp (count 2 _ rfl)
  have secondCount : k.head.u16 6 = k.second.length := Int.natCast_inj.mp (count 3 _ rfl)
  simp only [readBody, groupCount, label, firstCount, secondCount, body, List.append_assoc]
  rw [readGroups_flatMap k.fitGroups, ok_bind]
  simp only
  rw [readWords_flatMap k.fitFirst, ok_bind]
  simp only
  rw [readWords_flatMap k.fitSecond, ok_bind]
  rfl

theorem words_head {b : Bytes} (length : b.length = 8) :
    Bytes.words 2 b = [b.u16 0, b.u16 2, b.u16 4, b.u16 6] := words_eq_map_range (by decide) (n := 4) length

/-- What is read from a file is the command with some numbers, in the bytes it was read from. -/
theorem of_readBody {b rest left : Bytes} {c : Command} (length : b.length = 8)
    (h : readBody b rest = .ok (c, left)) : ∃ k : Numbers, c = k.command ∧ b = k.head ∧ rest = k.body ++ left := by
  obtain ⟨⟨groups, _⟩, grouped, h⟩ := bind_eq_ok.mp h
  obtain ⟨⟨first, _⟩, firstRead, h⟩ := bind_eq_ok.mp h
  obtain ⟨⟨second, _⟩, secondRead, h⟩ := bind_eq_ok.mp h
  cases h
  obtain ⟨gs, rfl, groupCount, isGroups, rfl⟩ := readGroups_inv grouped
  obtain ⟨ns, rfl, firstCount, firstFits, rfl⟩ := readWords_inv firstRead
  obtain ⟨ms, rfl, secondCount, secondFits, rfl⟩ := readWords_inv secondRead
  have head := flatMap_ofInt_words (w := 2) (by decide) (b := b) (by omega)
  have fits : ∀ n ∈ (Bytes.words 2 b).map Int.ofNat, Fits .u16 n := by
    intro n mem
    obtain ⟨w, word, rfl⟩ := List.mem_map.mp mem
    exact ⟨Int.natCast_nonneg w, Int.ofNat_lt.mpr (words_lt word)⟩
  rw [words_head length, ← groupCount, ← firstCount, ← secondCount] at head fits
  refine ⟨⟨b.u16 2, gs, ns, ms, fits, isGroups, firstFits, secondFits⟩, ?_, head.symm, ?_⟩
  · rw [← groupCount, ← firstCount, ← secondCount]
    rfl
  · simp only [body, List.append_assoc]

end Numbers

def fileOf (ks : List Numbers) : Bytes := ks.flatMap fun k => k.head ++ k.body

theorem fileOf_cons (k : Numbers) (ks : List Numbers) : fileOf (k :: ks) = k.head ++ (k.body ++ fileOf ks) := by
  rw [fileOf, List.flatMap_cons, List.append_assoc]
  rfl

theorem save_commands (ks : List Numbers) : save (ks.map Numbers.command) = .ok (fileOf ks) := by
  have encoded : (ks.map Numbers.command).mapM encode = .ok (ks.map fun k => k.head ++ k.body) := by
    induction ks with
    | nil => rfl
    | cons k ks ih => rw [List.map_cons, List.mapM_cons, k.encode_command, ok_bind, ih, ok_bind]; rfl
  rw [save, encoded, Except.map, fileOf, List.flatMap_def]

theorem readAll_of_readBody {data rest : Bytes} {c : Command} (fuel : Nat) (head : (data.take 8).length = 8)
    (read : readBody (data.take 8) (data.drop 8) = .ok (c, rest)) :
    readAll (fuel + 1) data = (c :: (readAll fuel rest).1, (readAll fuel rest).2) := by
  obtain ⟨b, bs, rfl⟩ : ∃ b bs, data = b :: bs := by
    refine List.exists_cons_of_ne_nil fun none => ?_
    rw [none] at head
    exact absurd head (by decide)
  simp only [readAll, exactly_eq_ok.mpr ⟨head, rfl⟩, read]

theorem readBody_of_readAll {data : Bytes} {cs : List Command} {fuel : Nat} (more : data ≠ [])
    (h : readAll (fuel + 1) data = (cs, .ok ())) :
    ∃ c rest cs', (data.take 8).length = 8 ∧ readBody (data.take 8) (data.drop 8) = .ok (c, rest) ∧
      readAll fuel rest = (cs', .ok ()) ∧ cs = c :: cs' := by
  obtain ⟨b, bs, rfl⟩ := List.exists_cons_of_ne_nil more
  cases head : Bytes.exactly 8 ((b :: bs).take 8) with
  | error fault => simp only [readAll, head, Prod.mk.injEq, reduceCtorEq, and_false] at h
  | ok eight =>
      obtain ⟨length, rfl⟩ := exactly_eq_ok.mp head
      cases read : readBody ((b :: bs).take 8) ((b :: bs).drop 8) with
      | error fault => simp only [readAll, head, read, Prod.mk.injEq, reduceCtorEq, and_false] at h
      | ok taken =>
          rw [readAll_of_readBody fuel length read] at h
          obtain ⟨rfl, ended⟩ := Prod.mk.inj h
          exact ⟨taken.1, taken.2, _, length, rfl, Prod.ext rfl ended, rfl⟩

theorem readAll_fileOf {ks : List Numbers} {fuel : Nat} (enough : ks.length < fuel) :
    readAll fuel (fileOf ks) = (ks.map Numbers.command, .ok ()) := by
  obtain ⟨fuel, rfl⟩ : ∃ n, fuel = n + 1 := ⟨fuel - 1, by omega⟩
  induction ks generalizing fuel with
  | nil => rfl
  | cons k ks ih =>
      obtain ⟨fuel, rfl⟩ : ∃ n, fuel = n + 1 := ⟨fuel - 1, by rw [List.length_cons] at enough; omega⟩
      have head : (fileOf (k :: ks)).take 8 = k.head := by rw [fileOf_cons, List.take_left' k.length_head]
      have body : (fileOf (k :: ks)).drop 8 = k.body ++ fileOf ks := by
        rw [fileOf_cons, List.drop_left' k.length_head]
      have read := k.readBody_command (fileOf ks)
      rw [← head, ← body] at read
      rw [readAll_of_readBody _ (by rw [head, k.length_head]) read,
        ih fuel (by rw [List.length_cons] at enough; omega)]
      rfl

theorem length_le_fileOf (ks : List Numbers) : ks.length ≤ (fileOf ks).length := by
  induction ks with
  | nil => exact Nat.le_refl 0
  | cons k ks ih =>
      have eight := k.length_head
      rw [fileOf_cons, List.length_append, List.length_append, List.length_cons]
      omega

theorem of_readAll {fuel : Nat} {data : Bytes} {cs : List Command} (enough : data.length < fuel)
    (h : readAll fuel data = (cs, .ok ())) : ∃ ks : List Numbers, cs = ks.map Numbers.command ∧ data = fileOf ks := by
  induction fuel generalizing data cs with
  | zero => exact absurd enough (Nat.not_lt_zero _)
  | succ fuel ih =>
      by_cases none : data = []
      · subst none
        exact ⟨[], (Prod.mk.inj h).1.symm, rfl⟩
      obtain ⟨c, rest, cs', length, read, readRest, rfl⟩ := readBody_of_readAll none h
      obtain ⟨k, rfl, head, body⟩ := Numbers.of_readBody length read
      have split : data = k.head ++ (k.body ++ rest) := by rw [← head, ← body, List.take_append_drop]
      -- The head alone takes eight bytes, so that the fuel lasts for the rest.
      have shorter : rest.length < fuel := by
        have eight := k.length_head
        rw [split, List.length_append, List.length_append] at enough
        omega
      obtain ⟨ks, rfl, rfl⟩ := ih shorter readRest
      exact ⟨k :: ks, rfl, by rw [split, fileOf_cons]⟩

theorem load_fileOf (ks : List Numbers) : load (fileOf ks) [] = (.ok (), ks.map Numbers.command) := by
  rw [load, readAll_fileOf (Nat.lt_succ_of_le (length_le_fileOf ks))]
  rfl

/-- What a load adds to the commands there are, when it succeeds. -/
theorem load_eq_ok {data : Bytes} {old cs : List Command} (h : load data old = (.ok (), cs)) :
    ∃ ks : List Numbers, cs = old ++ ks.map Numbers.command ∧ data = fileOf ks := by
  obtain ⟨outcome, rfl⟩ := Prod.mk.inj h
  obtain ⟨ks, added, file⟩ := of_readAll (Nat.lt_succ_self data.length) (Prod.ext rfl outcome)
  exact ⟨ks, congrArg (old ++ ·) added, file⟩

theorem save_of_load {data : Bytes} {cs : List Command} (h : load data [] = (.ok (), cs)) : save cs = .ok data := by
  obtain ⟨ks, rfl, rfl⟩ := load_eq_ok h
  exact save_commands ks

theorem of_mapM_encode {cs : List Command} {parts : List Bytes} (counted : ∀ c ∈ cs, c.Counted)
    (h : cs.mapM encode = .ok parts) :
    ∃ ks : List Numbers, cs.map plain = ks.map Numbers.command ∧ parts.flatten = fileOf ks := by
  induction cs generalizing parts with
  | nil =>
      cases h
      exact ⟨[], rfl, rfl⟩
  | cons c cs ih =>
      obtain ⟨part, others, first, rest, rfl⟩ := mapM_cons_eq_ok.mp h
      obtain ⟨k, command, rfl⟩ := Numbers.of_encode (counted c List.mem_cons_self) first
      obtain ⟨ks, commands, file⟩ := ih (fun c mem => counted c (List.mem_cons_of_mem _ mem)) rest
      refine ⟨k :: ks, ?_, ?_⟩
      · rw [List.map_cons, command, commands, List.map_cons]
      · rw [fileOf_cons, ← file, List.flatten_cons, List.append_assoc]

/-- What could be written is read back, with truth values as the numbers they stand for. -/
theorem load_of_save {cs : List Command} {b : Bytes} (counted : ∀ c ∈ cs, c.Counted) (h : save cs = .ok b) :
    load b [] = (.ok (), cs.map plain) := by
  obtain ⟨parts, encoded, rfl⟩ := map_eq_ok.mp h
  obtain ⟨ks, commands, file⟩ := of_mapM_encode counted encoded
  rw [file, load_fileOf, commands]

theorem recordsOnly_encode (c : Command) : RecordsOnly c.encode := by
  have small := Field.recordsOnly_packMany (f := .u8) (by decide)
  have middle := Field.recordsOnly_packMany (f := .u16) (by decide)
  have wide := Field.recordsOnly_packMany (f := .u32) (by decide)
  refine (middle _ _).bind fun _ => RecordsOnly.bind (.mapM fun group _ => small 4 group) fun _ => ?_
  exact (wide _ _).bind fun _ => (wide _ _).bind fun _ => .ok _

theorem recordsOnly_save (cs : List Command) : RecordsOnly (save cs) :=
  (RecordsOnly.mapM fun c _ => recordsOnly_encode c).map _

end GameData.Terrain.Command
