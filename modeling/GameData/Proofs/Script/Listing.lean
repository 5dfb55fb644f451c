import Mathlib
import GameData.Proofs.Script.Canonical
import GameData.Script.Listing

/-!
Programs and listings of one file.

A listing is read from front to back and a program where the header places its segments, and each has its own tables of
instructions and its own way to read operands. The tables agree for every byte and the operands for every instruction, so
that where both can be read they hold the same strings and the same instructions; and a program whose segments follow
each other can be read as a listing too.
-/
namespace GameData.Script

open Schema

section Rules

variable (place : List Step)

theorem checkItems_ints (ns : List Int) (i : Nat) : checkItems place i (ns.map .int) = .ok ns := by
  induction ns generalizing i with
  | nil => rfl
  | cons n ns ih =>
      rw [List.map_cons, checkItems]
      · simp only [integerOf, ih]
        rfl
      · exact nofun

theorem check_integer {least most limit : Option Int} {n : Int} (low : ∀ a ∈ least, a ≤ n) (below : ∀ a ∈ limit, n < a)
    (high : ∀ a ∈ most, n ≤ a) : (Rule.integer least most limit).check place (.int n) = .ok (.int n) := by
  have last : checkBounds.last place most n = .ok n := by
    unfold checkBounds.last
    split
    case h_1 a => rw [if_neg (Int.not_lt.mpr (high a rfl))]
    case h_2 => rfl
  have upper : checkBounds.upper place most limit n = .ok n := by
    unfold checkBounds.upper
    split
    case h_1 a => rw [if_neg (Int.not_le.mpr (below a rfl)), last]
    case h_2 => exact last
  have bounds : checkBounds place least most limit n = .ok n := by
    unfold checkBounds
    split
    case h_1 a => rw [if_neg (Int.not_lt.mpr (low a rfl)), upper]
    case h_2 => exact upper
  simp only [Rule.check, integerOf, ok_bind, bounds]
  rfl

theorem checkAll_value {r : Rule} {v : Value} (kept : r.check [.field "value"] v = .ok v) :
    Rule.checkAll [("value", v)] [("value", r)] = .ok [("value", v)] := by
  have found : List.lookup "value" [("value", v)] = some v := by simp only [List.lookup, beq_self_eq_true]
  rw [Rule.checkAll]
  simp only [found, kept]
  rfl

end Rules

/-- The rule of an instruction with a whole operand allows all that the field of the operand holds. -/
theorem Mnemonic.rule?_of_field {m : Mnemonic} {f : Field} (field : m.field? = some f) (whole : f ≠ .f32)
    (single : m ≠ .call) : ∃ least most limit, m.rule? = some (.integer least most limit) ∧
      (∀ a ∈ least, a ≤ f.least) ∧ (∀ a ∈ limit, f.limit ≤ a) ∧ ∀ a ∈ most, f.limit ≤ a + 1 := by
  cases m <;> cases field <;>
    first
    | exact absurd rfl single
    | exact absurd rfl whole
    | exact ⟨_, _, _, rfl, by decide, by decide, by decide⟩

/-- An instruction keeps the operand that it can carry. -/
theorem Carries.build_value {m : Mnemonic} {v : Value} {n : Nat} (h : Carries m v n) :
    m.build [("value", v)] = .ok (if m.rule?.isSome then [("value", v)] else []) := by
  cases h with
  | none bare => cases m <;> first | rfl | cases bare
  | integer f i field whole single low high =>
      obtain ⟨least, most, limit, rule, lower, below, upper⟩ := Mnemonic.rule?_of_field field whole single
      have kept := check_integer [.field "value"] (fun a given => Int.le_trans (lower a given) low)
        (fun a given => Int.lt_of_lt_of_le high (below a given))
        (fun a given => Int.lt_add_one_iff.mp (Int.lt_of_lt_of_le high (upper a given)))
      simp only [Mnemonic.build, rule, checkAll_value kept, Option.isSome_some, if_true]
  | real x =>
      have kept : Rule.real.check [.field "value"] (.real x.widen) = .ok (.real x.widen) := rfl
      exact checkAll_value kept
  | call targets count inside =>
      refine checkAll_value ?_
      simp only [Rule.check, checkItems_ints]
      rfl

namespace Listing

/-- The instructions of a listing as they stand in the code of a program. -/
def Lists (instructions : List Instruction) (code : List Opcode) : Prop :=
  instructions.map (fun i => ((i.address : Int), i.mnemonic, i.operand)) =
    code.map fun op => (op.addr, op.mnemonic, op.operand)

/-- Both number the instructions alike. -/
theorem lookup_codes (e : Edition) :
    ∃ codes, codes? e.number = some codes ∧ ∀ b, codes.lookup b = e.mnemonic? b := by
  have each : (∀ n : Fin 256, codes5.lookup (UInt8.ofFin n) = Edition.five.mnemonic? (UInt8.ofFin n)) ∧
      ∀ n : Fin 256, codes7.lookup (UInt8.ofFin n) = Edition.seven.mnemonic? (UInt8.ofFin n) := by
    decide +kernel
  cases e with
  | five => exact ⟨codes5, rfl, fun b => each.1 b.toFin⟩
  | seven => exact ⟨codes7, rfl, fun b => each.2 b.toFin⟩

/-- Both refuse the same instructions. -/
theorem contains_refused (m : Mnemonic) : refused.contains m = !m.isSupported := by
  cases m <;> rfl

/-- Both read the same operands, of the same widths. -/
theorem readOperand_eq (m : Mnemonic) (rest : Bytes) :
    readOperand m rest = (Opcode.decodeOperand m rest).map fun found => (m.field?.map fun _ => found.1, found.2) := by
  by_cases call : m = .call
  · subst call
    change (Bytes.exactly 4 (rest.take 4) >>= _) = Except.map _ (Bytes.exactly 4 (rest.take 4) >>= _)
    cases Bytes.exactly 4 (rest.take 4) with
    | error f => rfl
    | ok head =>
        rw [ok_bind, ok_bind]
        dsimp only
        cases Bytes.exactly (4 * Bytes.ofLE head) ((rest.drop 4).take (4 * Bytes.ofLE head)) <;> rfl
  · cases field : m.field? with
    | none =>
        rw [Opcode.decodeOperand_of_none field]
        cases m <;> first | rfl | cases field
    | some f =>
        have one : readOperand m rest = readField f rest := by
          cases m <;> first | exact absurd rfl call | (cases field; rfl) | cases field
        rw [one, readField, Opcode.decodeOperand_of_field field call]
        cases Bytes.exactly f.width (rest.take f.width) <;> rfl

/-- An instruction can be constructed with each operand that it carries. -/
theorem construct_of_carries {m : Mnemonic} {v : Value} {n : Nat} (carries : Carries m v n) (address : Nat) :
    construct address m (m.field?.map fun _ => v) = .ok ⟨address, m, v⟩ := by
  have built := carries.build_value
  have ruled : m.rule?.isSome = m.field?.isSome := by cases m <;> rfl
  cases field : m.field? with
  | none =>
      have null : v = .null := by
        cases carries with
        | none => rfl
        | integer f i found => rw [field] at found; cases found
        | real x => cases field
        | call => cases field
      have noRule : m.rule? = none := Option.not_isSome_iff_eq_none.mp (by rw [ruled, field]; decide)
      subst null
      simp only [construct, Mnemonic.build, noRule, ok_bind]
      rfl
  | some f =>
      rw [field] at ruled
      rw [ruled] at built
      have given : ((some f).map fun _ => v).toList.map (fun v => ("value", v)) = [("value", v)] := rfl
      rw [construct, given, built]
      rfl

/-- Code that is decoded for a program is read for a listing. -/
theorem readInstructions_of_decodeAll {e : Edition} {codes : List (UInt8 × Mnemonic)}
    (alike : ∀ b, codes.lookup b = e.mnemonic? b) {size addr : Nat} {rest tail : Bytes} {ops : List Opcode}
    (h : Opcode.decodeAll e size addr rest = .ok (ops, tail)) :
    ∃ instructions, readInstructions codes size addr rest = .ok instructions ∧ Lists instructions ops := by
  fun_induction Opcode.decodeAll e size addr rest generalizing ops tail with
  | case1 addr inside => cases h
  | case2 addr inside b bs ih =>
      obtain ⟨⟨m, v, n⟩, read, h⟩ := bind_eq_ok.mp h
      obtain ⟨⟨more, tail'⟩, later, h⟩ := bind_eq_ok.mp h
      cases h
      obtain ⟨number, supported, operand⟩ := Opcode.decode_eq_ok read
      obtain ⟨others, listed, same⟩ := ih n later
      have constructed := construct_of_carries (Carries.of_decodeOperand operand) addr
      refine ⟨⟨addr, m, v⟩ :: others, ?_, congrArg (_ :: ·) same⟩
      rw [readInstructions, if_pos inside]
      simp only [alike, number, contains_refused, supported, Bool.not_true, Bool.false_eq_true, if_false, readOperand_eq,
        operand, Except.map, ok_bind, constructed, listed]
  | case3 addr rest full =>
      cases h
      refine ⟨[], ?_, rfl⟩
      rw [readInstructions.eq_def, if_neg full]

/-- The words of the header are those at their offsets. -/
theorem readHeader_eq (data : Bytes) :
    readHeader data = (Bytes.exactly Header.size (data.take Header.size)).map Header.decode := by
  rw [readHeader]
  cases read : Bytes.exactly Header.size (data.take Header.size) with
  | error f =>
      have short : Bytes.exactly 60 (data.take 60) = .error f := read
      rw [short]
      rfl
  | ok b =>
      obtain ⟨length, rfl⟩ := exactly_eq_ok.mp read
      have whole : Bytes.exactly 60 (data.take 60) = .ok (data.take Header.size) := read
      rw [whole, ok_bind, Header.words_decode length]
      rfl

theorem Lists.pairwise_address {instructions : List Instruction} {code : List Opcode} (h : Lists instructions code)
    {start stop : Int} (tiled : Tiled start code stop) :
    (instructions.map Instruction.address).Pairwise (· < ·) := by
  have addresses : instructions.map (fun i => (i.address : Int)) = code.map Opcode.addr := by
    have first := congrArg (List.map Prod.fst) h
    rw [List.map_map, List.map_map] at first
    exact first
  have increasing := tiled.pairwise_addr
  rw [← addresses, List.pairwise_map] at increasing
  exact List.pairwise_map.mpr (increasing.imp Int.ofNat_lt.mp)

theorem Lists.build_value {instructions : List Instruction} {code : List Opcode} (h : Lists instructions code)
    (coded : ∀ op ∈ code, op.Coded) {i : Instruction} (mem : i ∈ instructions) :
    i.mnemonic.build [("value", i.operand)] = .ok (if i.mnemonic.rule?.isSome then [("value", i.operand)] else []) := by
  have listed : ((i.address : Int), i.mnemonic, i.operand) ∈ code.map fun op => (op.addr, op.mnemonic, op.operand) := by
    rw [← h]
    exact List.mem_map_of_mem mem
  obtain ⟨op, opMem, same⟩ := List.mem_map.mp listed
  obtain ⟨n, _, carries⟩ := (coded op opMem).carries
  obtain ⟨_, mnemonic, operand⟩ : _ ∧ op.mnemonic = i.mnemonic ∧ op.operand = i.operand := by
    simpa only [Prod.mk.injEq] using same
  rw [mnemonic, operand] at carries
  exact carries.build_value

theorem readStrings_eq_ok {data : Bytes} {position offset size stop : Nat} {ss : List String} :
    readStrings data position offset size = .ok (ss, stop) ↔ position = offset ∧
      decodeStrings (data.slice offset size) = .ok ss ∧ stop = offset + (data.slice offset size).length := by
  unfold readStrings
  simp only [bind_eq_ok, ensure_eq_ok, beq_iff_eq]
  constructor
  · rintro ⟨_, rfl, ss, read, h⟩
    cases h
    exact ⟨rfl, read, rfl⟩
  · rintro ⟨rfl, read, rfl⟩
    exact ⟨(), rfl, ss, read, rfl⟩

end Listing

def Header.start (h : Header) : Nat := if h.minorVersion = 7 then 64 else 60

/-- The segments follow the header and each other, and end inside a file of some length. -/
structure Header.BackToBack (h : Header) (length : Nat) : Prop where
  identifierOffsets : h.identifierOffsetsAt = h.start
  identifiers : h.identifiersAt = h.identifierOffsetsAt + h.identifierOffsetsSize
  stringOffsets : h.stringOffsetsAt = h.identifiersAt + h.identifiersSize
  strings : h.stringsAt = h.stringOffsetsAt + h.stringOffsetsSize
  code : h.codeAt = h.stringsAt + h.stringsSize
  inside : h.codeAt + h.codeSize ≤ length

namespace Program

variable {data : Bytes} {e : Edition} {s : Segments}

/-- What a listing of the same file holds. -/
theorem Reads.listing (reads : Reads data e s) {l : Listing} (listed : Listing.load data = .ok l) :
    l.identifiers = s.identifiers ∧ l.strings = s.strings ∧ Listing.Lists l.instructions s.code := by
  unfold Listing.load at listed
  obtain ⟨head, read, listed⟩ := bind_eq_ok.mp listed
  rw [Listing.readHeader_eq, exactly_eq_ok.mpr ⟨reads.headed, rfl⟩] at read
  cases read
  obtain ⟨⟨identifiers, position⟩, read, listed⟩ := bind_eq_ok.mp listed
  obtain ⟨_, identifiersRead, _⟩ := Listing.readStrings_eq_ok.mp read
  obtain ⟨⟨strings, position'⟩, read, listed⟩ := bind_eq_ok.mp listed
  obtain ⟨_, stringsRead, _⟩ := Listing.readStrings_eq_ok.mp read
  obtain ⟨_, placed, listed⟩ := bind_eq_ok.mp listed
  have placed := beq_iff_eq.mp (ensure_eq_ok.mp placed)
  have edition : (Header.decode (data.take Header.size)).minorVersion = e.number :=
    Edition.eq_number (Header.edition_of_check reads.checked)
  obtain ⟨codes, numbered, alike⟩ := Listing.lookup_codes e
  simp only [edition, numbered, placed, bind_eq_ok] at listed
  obtain ⟨instructions, read, listed⟩ := listed
  cases listed
  obtain ⟨others, again, same⟩ := Listing.readInstructions_of_decodeAll alike reads.located.code
  cases again.symm.trans read
  exact ⟨Except.ok.inj (identifiersRead.symm.trans reads.located.identifiers),
    Except.ok.inj (stringsRead.symm.trans reads.located.strings), same⟩

/-- A file with its segments back to back can be read as a listing. -/
theorem Reads.exists_listing (reads : Reads data e s) (backToBack : (headerOf data).BackToBack data.length) :
    ∃ l, Listing.load data = .ok l := by
  obtain ⟨h₁, h₂, h₃, h₄, h₅, h₆⟩ := backToBack
  have head : Listing.readHeader data = .ok (headerOf data) := by
    rw [Listing.readHeader_eq, exactly_eq_ok.mpr ⟨reads.headed, rfl⟩]
    rfl
  have identifiers : Listing.readStrings data ((headerOf data).start + (headerOf data).identifierOffsetsSize)
      (headerOf data).identifiersAt (headerOf data).identifiersSize =
        .ok (s.identifiers, (headerOf data).identifiersAt + (headerOf data).identifiersSize) :=
    Listing.readStrings_eq_ok.mpr ⟨by omega, reads.located.identifiers, by rw [Bytes.length_slice_of_le (by omega)]⟩
  have strings : Listing.readStrings data ((headerOf data).identifiersAt + (headerOf data).identifiersSize
      + (headerOf data).stringOffsetsSize) (headerOf data).stringsAt (headerOf data).stringsSize =
        .ok (s.strings, (headerOf data).stringsAt + (headerOf data).stringsSize) :=
    Listing.readStrings_eq_ok.mpr ⟨by omega, reads.located.strings, by rw [Bytes.length_slice_of_le (by omega)]⟩
  obtain ⟨codes, numbered, alike⟩ := Listing.lookup_codes e
  obtain ⟨instructions, code, _⟩ := Listing.readInstructions_of_decodeAll alike reads.located.code
  have edition : (headerOf data).minorVersion = e.number :=
    Edition.eq_number (Header.edition_of_check reads.checked)
  refine ⟨⟨(headerOf data).signature, (headerOf data).majorVersion, (headerOf data).minorVersion,
    (headerOf data).firstReserved, (headerOf data).secondReserved, s.identifiers, s.strings, instructions⟩, ?_⟩
  refine bind_eq_ok.mpr ⟨_, head, bind_eq_ok.mpr ⟨_, identifiers, bind_eq_ok.mpr ⟨_, strings,
    bind_eq_ok.mpr ⟨(), ensure_eq_ok.mpr (beq_iff_eq.mpr h₅.symm), ?_⟩⟩⟩⟩
  simp only [edition, numbered]
  rw [← h₅]
  exact bind_eq_ok.mpr ⟨_, code, rfl⟩

end Program

/-- The two readers of a script agree. Where both accept a file they give the same strings and the same instructions
at the same addresses, with operands that their rules leave as they are; and a program whose segments follow each
other inside the file is accepted as a listing. -/
theorem listing_agrees_with_program {data : Bytes} {p : Program}
    (loaded : (Program.load data).fill {} = (.ok (), p)) :
    (∀ l, Listing.load data = .ok l →
      p.identifiers = some l.identifiers ∧ p.strings = some l.strings ∧
      (∃ code, p.code = some code ∧ l.instructions.map (fun i => ((i.address : Int), i.mnemonic, i.operand)) =
        code.map fun op => (op.addr, op.mnemonic, op.operand)) ∧
      (l.instructions.map Instruction.address).Pairwise (· < ·) ∧
      ∀ i ∈ l.instructions, i.mnemonic.build [("value", i.operand)] =
        .ok (if i.mnemonic.rule?.isSome then [("value", i.operand)] else [])) ∧
    ∀ h, p.header = some h → h.BackToBack data.length → ∃ l, Listing.load data = .ok l := by
  obtain ⟨e, s, reads, rfl⟩ := Program.load_fill_eq_ok.mp loaded
  constructor
  · intro l listed
    obtain ⟨identifiers, strings, instructions⟩ := reads.listing listed
    obtain ⟨coded, stop, tiled⟩ := Opcode.of_decodeAll reads.located.code
    exact ⟨congrArg some identifiers.symm, congrArg some strings.symm, ⟨s.code, rfl, instructions⟩,
      instructions.pairwise_address tiled, fun i mem => instructions.build_value coded mem⟩
  · rintro h ⟨⟩ backToBack
    exact reads.exists_listing backToBack

theorem listing_agrees_with_program_sevenSample :
    ∃ p l, (Program.load Program.sevenSample).fill {} = (.ok (), p) ∧ Listing.load Program.sevenSample = .ok l ∧
      p.identifiers = some l.identifiers ∧ p.strings = some l.strings := by
  have loaded : (Program.load Program.sevenSample).fill {} = (.ok (), _) :=
    Program.load_fill_eq_ok.mpr ⟨_, _, Program.reads_sevenSample, rfl⟩
  obtain ⟨agree, accept⟩ := listing_agrees_with_program loaded
  obtain ⟨l, listed⟩ := accept _ rfl ⟨by decide +kernel, by decide +kernel, by decide +kernel, by decide +kernel,
    by decide +kernel, by decide +kernel⟩
  obtain ⟨identifiers, strings, -⟩ := agree l listed
  exact ⟨_, l, loaded, listed, identifiers, strings⟩

end GameData.Script
