/-!
File name patterns: a star for any text, a question mark for any character, and sets of characters in brackets,
with ranges, and negated by an exclamation mark in front. A bracket that is not closed stands for itself.
-/
namespace GameData.Pattern

inductive Atom where
  | char (c : Char)
  | any
  | star
  /-- A set given by its ranges. -/
  | set (negated : Bool) (ranges : List (Char × Char))

/-- The ranges in a set; one whose ends are in the wrong order is empty. -/
def ranges : List Char → List (Char × Char)
  | a :: '-' :: b :: rest => if a ≤ b then (a, b) :: ranges rest else ranges rest
  | a :: rest => (a, a) :: ranges rest
  | [] => []

/-- What stands before and after the closing bracket. -/
def close? : List Char → Option (List Char × List Char)
  | [] => none
  | c :: rest => if c = ']' then some ([], rest) else (close? rest).map fun (body, rest) => (c :: body, rest)

theorem close?_length {cs body rest : List Char} (h : close? cs = some (body, rest)) : rest.length < cs.length := by
  induction cs generalizing body with
  | nil => simp [close?] at h
  | cons c cs ih =>
    unfold close? at h
    split at h
    · simp only [Option.some.injEq, Prod.mk.injEq] at h
      simp [h.2]
    · obtain ⟨⟨b, r⟩, hr, he⟩ := Option.map_eq_some_iff.1 h
      simp only [Prod.mk.injEq] at he
      have := ih (he.2 ▸ hr)
      simp only [List.length_cons]
      omega

/-- The contents of a set after its opening bracket and an exclamation mark. A closing bracket in front belongs to
the set. -/
def members? : List Char → Option (List Char × List Char)
  | c :: cs => if c = ']' then (close? cs).map fun (body, rest) => (c :: body, rest) else close? (c :: cs)
  | [] => none

theorem members?_length {cs body rest : List Char} (h : members? cs = some (body, rest)) :
    rest.length < cs.length := by
  unfold members? at h
  split at h
  · split at h
    · obtain ⟨⟨b, r⟩, hr, he⟩ := Option.map_eq_some_iff.1 h
      simp only [Prod.mk.injEq] at he
      have := close?_length (he.2 ▸ hr)
      simp only [List.length_cons]
      omega
    · exact close?_length h
  · simp at h

/-- The set that starts after an opening bracket, and what follows its closing one. -/
def set? : List Char → Option (Atom × List Char)
  | c :: cs =>
    if c = '!' then (members? cs).map fun (body, rest) => (.set true (ranges body), rest)
    else (members? (c :: cs)).map fun (body, rest) => (.set false (ranges body), rest)
  | [] => none

theorem set?_length {cs rest : List Char} {a : Atom} (h : set? cs = some (a, rest)) : rest.length < cs.length := by
  unfold set? at h
  split at h
  · split at h
    all_goals
      obtain ⟨⟨b, r⟩, hr, he⟩ := Option.map_eq_some_iff.1 h
      simp only [Prod.mk.injEq] at he
      have := members?_length (he.2 ▸ hr)
      simp only [List.length_cons] at *
      omega
  · simp at h

def parse (cs : List Char) : List Atom :=
  match cs with
  | [] => []
  | '*' :: rest => .star :: parse rest
  | '?' :: rest => .any :: parse rest
  | '[' :: rest =>
    match _h : set? rest with
    | some (a, rest') => a :: parse rest'
    | none => .char '[' :: parse rest
  | c :: rest => .char c :: parse rest
termination_by cs.length
decreasing_by
  all_goals simp only [List.length_cons]
  · omega
  · omega
  · have := set?_length _h; omega
  · omega
  · omega

def Atom.accepts (a : Atom) (c : Char) : Bool :=
  match a with
  | .char d => c == d
  | .any | .star => true
  | .set negated rs => (rs.any fun (lo, hi) => decide (lo ≤ c ∧ c ≤ hi)) != negated

/-- The whole name agrees with the pattern. -/
def agrees : List Atom → List Char → Bool
  | [], cs => cs.isEmpty
  | .star :: atoms, [] => agrees atoms []
  | .star :: atoms, c :: cs => agrees atoms (c :: cs) || agrees (.star :: atoms) cs
  | _ :: _, [] => false
  | a :: atoms, c :: cs => a.accepts c && agrees atoms cs
termination_by atoms cs => atoms.length + cs.length

/-- The name agrees with the pattern. -/
def accepts (pattern name : String) : Bool := agrees (parse pattern.toList) name.toList

end GameData.Pattern
