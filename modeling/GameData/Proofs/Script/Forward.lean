import GameData.Proofs.Number.Rounding
import GameData.Proofs.Script.Segment
import GameData.Proofs.Script.Straight

/-!
Walks through code that jumps forward.

Every walk that a walk starts, and every address it goes on to, lies behind the instruction it stands at. This holds
for the end of an `else` part too, which may be given by any operand: a positive one leads behind the instruction that
carries it, also after rounding. The bytes left behind an instruction therefore bound the fuel that a walk needs.
-/
namespace GameData.Script

/-- Arguments lie behind their call, a jump that is not backward follows it, and no condition jumps backward. -/
structure Forward (code : List Opcode) : Prop where
  arguments : ∀ op ∈ code, op.mnemonic = .call → ∀ targets, op.operand = .list targets →
    ∀ n : Int, .int n ∈ targets → op.addr < n
  skips : ∀ op ∈ code, op.mnemonic = .call → ∃ skip ∈ code, skip.addr = op.addr + op.size ∧ skip.mnemonic = .bra ∧
    ∃ n : Nat, skip.operand = .int n
  conditions : ∀ op ∈ code, op.mnemonic = .bf → ∃ n : Nat, op.operand = .int n

section Settled

variable {α β : Type}

/-- The two computations give the same, and not for want of fuel. -/
def Settled (x y : Except Fault α) : Prop := x = y ∧ x ≠ .error .tooDeep

theorem Settled.same {x : Except Fault α} (h : x ≠ .error .tooDeep) : Settled x x := ⟨rfl, h⟩

theorem Settled.ok (a : α) : Settled (.ok a : Except Fault α) (.ok a) := by
  apply Settled.same
  intro h
  cases h

theorem Settled.bind {x y : Except Fault α} {f g : α → Except Fault β} (h : Settled x y)
    (next : ∀ a, x = .ok a → Settled (f a) (g a)) : Settled (x >>= f) (y >>= g) := by
  obtain ⟨rfl, shallow⟩ := h
  cases x with
  | error e =>
      refine ⟨rfl, ?_⟩
      intro deep
      cases deep
      exact shallow rfl
  | ok a => exact next a rfl

end Settled

def place? : Value → Option Int
  | .int n => some n
  | .bool b => some (if b then 1 else 0)
  | .real x => x.toInt?
  | _ => none

def lookup? (code : List Opcode) (v : Value) : Option Opcode :=
  (place? v).bind fun n => code.reverse.find? fun op => op.addr == n

theorem fetch_eq_lookup? (code : List Opcode) {v : Value} (single : ∀ items, v ≠ .list items) :
    fetch code v = (lookup? code v).elim (.error (.key v.literal)) .ok := by
  cases v with
  | list items => exact absurd rfl (single items)
  | _ =>
      simp only [fetch, lookup?, place?]
      split <;> rename_i found <;> rw [found] <;> rfl

/-- What is found at an address is an instruction of the code, and the address is its own. -/
theorem fetch_eq_ok {code : List Opcode} {v : Value} {op : Opcode} (reads : fetch code v = .ok op) :
    op ∈ code ∧ place? v = some op.addr := by
  have single : ∀ items, v ≠ .list items := by
    rintro items rfl
    cases reads
  rw [fetch_eq_lookup? code single] at reads
  cases found : lookup? code v with
  | none =>
      rw [found] at reads
      cases reads
  | some other =>
      rw [found] at reads
      cases reads
      obtain ⟨n, place, found⟩ := Option.bind_eq_some_iff.mp found
      have here : (op.addr == n) = true := List.find?_some (p := fun op : Opcode => op.addr == n) found
      have addr : op.addr = n := eq_of_beq here
      exact ⟨List.mem_reverse.mp (List.mem_of_find?_eq_some found), addr ▸ place⟩

section Shallow

theorem fetch_ne (code : List Opcode) (v : Value) : fetch code v ≠ .error .tooDeep := by
  intro h
  by_cases list : ∃ items, v = .list items
  · obtain ⟨items, rfl⟩ := list
    cases h
  · rw [fetch_eq_lookup? code fun items same => list ⟨items, same⟩] at h
    cases found : lookup? code v with
    | none =>
        rw [found] at h
        cases h
    | some op =>
        rw [found] at h
        cases h

theorem offset_ne (base : Int) (v : Value) : offset base v ≠ .error .tooDeep := by
  intro h
  cases v <;> cases h

theorem direction_ne (v : Value) : direction v ≠ .error .tooDeep := by
  intro h
  cases v <;> cases h

theorem pop_ne (stack : List Node) : pop stack ≠ .error .tooDeep := by
  intro h
  cases stack <;> cases h

theorem Straight.grow_ne (i : Straight) (names : Names) (stack : List Node) :
    i.grow names stack ≠ .error .tooDeep := by
  intro h
  cases i with
  | number v => cases h
  | constant n => cases h
  | string k =>
      simp only [grow] at h
      cases hs : names.strings[k]? <;> rw [hs] at h <;> cases h
  | identifier k =>
      simp only [grow] at h
      cases hs : names.identifiers[k]? <;> rw [hs] at h <;> cases h
  | unary op => cases stack <;> cases h
  | binary op => rcases stack with _ | ⟨right, _ | ⟨left, rest⟩⟩ <;> cases h

end Shallow

/-- Whatever stands at the address stands behind another one. -/
def Behind (code : List Opcode) (a : Int) (v : Value) : Prop := ∀ op, fetch code v = .ok op → a < op.addr

theorem behind_int {code : List Opcode} {a n : Int} (lt : a < n) : Behind code a (.int n) := by
  intro op reads
  cases (fetch_eq_ok reads).2
  exact lt

/-- A positive distance leads behind every address up to the one it counts from. -/
theorem behind_offset {code : List Opcode} {a : Int} {base : Nat} (lt : a < base) (small : base < Nat.pow 2 53)
    {v next : Value} (forward : direction v = .ok .gt) (lands : offset base v = .ok next) : Behind code a next := by
  cases v with
  | int n =>
      cases lands
      have positive : 0 < n := Int.compare_eq_gt.mp (Except.ok.inj forward)
      exact behind_int (by omega)
  | bool b =>
      cases lands
      exact behind_int (by split <;> omega)
  | real x =>
      cases lands
      intro op reads
      have positive : x.isPositive = true := by
        simp only [direction, Except.ok.injEq] at forward
        split at forward
        · cases forward
        · split at forward
          · assumption
          · cases forward
      have := Double.le_toInt?_addInt small positive (fetch_eq_ok reads).2
      omega
  | _ => cases lands

/-- The bytes left behind whatever stands at the address are fewer than the fuel. -/
def Enough (code : List Opcode) (stop : Int) (fuel : Nat) (v : Value) : Prop :=
  0 < fuel ∧ ∀ op, fetch code v = .ok op → stop - op.addr < fuel

theorem Enough.behind {code : List Opcode} {stop a : Int} {fuel : Nat} {v : Value} (inside : a < stop)
    (enough : stop - a ≤ fuel) (behind : Behind code a v) : Enough code stop fuel v := by
  refine ⟨by omega, ?_⟩
  intro op reads
  have := behind op reads
  omega

section Step

variable {names : Names} {code : List Opcode} {f g : Nat} {v until_ : Value} {stack : List Node} {op : Opcode}

/-- With either amount of fuel every walk from the address gives the same, and not for want of fuel. -/
def Agree (names : Names) (code : List Opcode) (f g : Nat) (v : Value) : Prop :=
  ∀ until_ stack, Settled (walk names code f v until_ stack) (walk names code g v until_ stack)

theorem walk_settled_pop (reads : fetch code v = .ok op) (clear : reached until_ op.addr = false)
    (m : op.mnemonic = .pop) (next : Agree names code f g (.int (op.addr + op.size))) :
    Settled (walk names code (f + 1) v until_ stack) (walk names code (g + 1) v until_ stack) := by
  simp only [walk, reads, ok_bind, clear, Bool.false_eq_true, if_false, m]
  exact next until_ stack

theorem walk_settled_straight {i : Straight} (reads : fetch code v = .ok op) (clear : reached until_ op.addr = false)
    (straight : op.straight? = some i) (next : Agree names code f g (.int (op.addr + op.size))) :
    Settled (walk names code (f + 1) v until_ stack) (walk names code (g + 1) v until_ stack) := by
  rw [walk_straight reads clear straight, walk_straight reads clear straight]
  apply (Settled.same (i.grow_ne names stack)).bind
  intro grown _
  exact next until_ grown

theorem walk_settled_call {jumps : List Value} (reads : fetch code v = .ok op) (clear : reached until_ op.addr = false)
    (m : op.mnemonic = .call) (operand : op.operand = .list jumps)
    (arguments : Settled (walkAll names code f jumps) (walkAll names code g jumps))
    (next : ∀ skip address, fetch code (.int (op.addr + op.size)) = .ok skip →
      offset (skip.addr + skip.size) skip.operand = .ok address → Agree names code f g address) :
    Settled (walk names code (f + 1) v until_ stack) (walk names code (g + 1) v until_ stack) := by
  simp only [walk, reads, ok_bind, clear, Bool.false_eq_true, if_false, m, operand, targets]
  apply (Settled.same (pop_ne stack)).bind
  rintro ⟨callee, rest⟩ -
  apply arguments.bind
  intro trees _
  apply (Settled.same (fetch_ne code _)).bind
  intro skip found
  apply (Settled.same (offset_ne _ _)).bind
  intro address lands
  exact next skip address found lands until_ _

theorem walk_settled_bf {n : Int} (reads : fetch code v = .ok op) (clear : reached until_ op.addr = false)
    (m : op.mnemonic = .bf) (operand : op.operand = .int n) (body : Agree names code f g (.int (op.addr + op.size)))
    (after : Agree names code f g (.int (op.addr + op.size + n)))
    (last : ∀ skip address, fetch code (.int (-5 + (op.addr + op.size + n))) = .ok skip →
      direction skip.operand = .ok .gt → offset (skip.addr + skip.size) skip.operand = .ok address →
      Agree names code f g address) :
    Settled (walk names code (f + 1) v until_ stack) (walk names code (g + 1) v until_ stack) := by
  simp only [walk, reads, ok_bind, clear, Bool.false_eq_true, if_false, m, operand, offset]
  apply (Settled.same (fetch_ne code _)).bind
  intro skip found
  apply (Settled.same (direction_ne _)).bind
  intro way turns
  cases way with
  | lt | eq =>
      apply (Settled.same (pop_ne stack)).bind
      rintro ⟨test, rest⟩ -
      apply (body .null []).bind
      intro trees _
      exact after until_ _
  | gt =>
      apply (Settled.same (pop_ne stack)).bind
      rintro ⟨test, rest⟩ -
      apply (body .null []).bind
      intro yes _
      apply (Settled.same (offset_ne _ _)).bind
      intro address lands
      apply (after address []).bind
      intro no _
      exact last skip address found turns lands until_ _

/-- The arguments of a call are walked one after another, each with one unit of fuel less than the one before. -/
theorem walkAll_settled {jumps : List Value} (le : f ≤ g) (long : jumps.length < f)
    (each : ∀ f' g', f ≤ f' + jumps.length → f' < f → f' ≤ g' → ∀ jump ∈ jumps, Agree names code f' g' jump) :
    Settled (walkAll names code f jumps) (walkAll names code g jumps) := by
  induction jumps generalizing f g with
  | nil =>
      obtain ⟨f, rfl⟩ := Nat.exists_eq_add_one.mpr long
      obtain ⟨g, rfl⟩ := Nat.exists_eq_add_one.mpr (Nat.lt_of_lt_of_le long le)
      exact .ok []
  | cons jump jumps ih =>
      rw [List.length_cons] at long each
      obtain ⟨f, rfl⟩ := Nat.exists_eq_add_one.mpr (Nat.zero_lt_of_lt long)
      obtain ⟨g, rfl⟩ := Nat.exists_eq_add_one.mpr (Nat.lt_of_lt_of_le (Nat.succ_pos f) le)
      have first := each f g (by omega) (by omega) (by omega) jump List.mem_cons_self
      have others : Settled (walkAll names code f jumps) (walkAll names code g jumps) := by
        apply ih (by omega) (by omega)
        intro f' g' low high le t mem
        exact each f' g' (by omega) (by omega) le t (List.mem_cons_of_mem jump mem)
      simp only [walkAll]
      apply (first .null []).bind
      intro trees _
      apply others.bind
      intro more _
      exact .ok _

end Step

/-- What the walk tells apart, of the instructions that can be loaded. -/
theorem Opcode.Coded.kinds {op : Opcode} (coded : op.Coded) :
    (op.mnemonic = .brk ∨ op.mnemonic = .bra) ∨ op.mnemonic = .pop ∨
      (op.mnemonic = .call ∧ ∃ targets : List Int, op.operand = .list (targets.map .int) ∧
        op.size = 5 + 4 * targets.length) ∨
      (op.mnemonic = .bf ∧ op.size = 5) ∨ ∃ i, op.straight? = some i := by
  obtain ⟨supported, n, size, carries⟩ := coded
  obtain ⟨m, v, s, a⟩ := op
  cases m
  case brk => exact .inl (.inl rfl)
  case bra => exact .inl (.inr rfl)
  case pop => exact .inr (.inl rfl)
  case call =>
    cases carries with
    | call targets count inside =>
        have whole : s = (4 + 4 * targets.length : Nat) + 1 := size
        have total : s = 5 + 4 * targets.length := by omega
        exact .inr (.inr (.inl ⟨rfl, targets, rfl, total⟩))
    | none bare => cases bare
    | integer f i field whole single low high => exact absurd rfl single
  case bf =>
    cases carries with
    | integer f i field whole single low high =>
        cases field
        exact .inr (.inr (.inr (.inl ⟨rfl, size⟩)))
    | none bare => cases bare
  case pushsi | pushsib | pushsiw | pushii | pushiib | pushiiw =>
    cases carries with
    | integer f i field whole single low high =>
        cases field
        obtain ⟨k, rfl⟩ := Int.eq_ofNat_of_zero_le low
        exact .inr (.inr (.inr (.inr ⟨_, rfl⟩)))
    | none bare => cases bare
  all_goals first
    | exact .inr (.inr (.inr (.inr ⟨_, rfl⟩)))
    | cases supported

def argumentCount : Value → Nat
  | .list items => items.length
  | _ => 0

theorem Opcode.Coded.size_le {op : Opcode} (coded : op.Coded) :
    op.size ≤ 5 + 4 * argumentCount op.operand ∧ argumentCount op.operand < 4294967296 := by
  obtain ⟨-, n, size, carries⟩ := coded
  obtain ⟨m, v, s, a⟩ := op
  cases size
  cases carries with
  | none bare => simp [argumentCount]
  | integer f i field whole single low high => cases f <;> simp [argumentCount, Field.width]
  | real x => simp [argumentCount]
  | call targets count inside =>
      have few : (targets.length : Int) < 4294967296 := count
      simp only [argumentCount, List.length_map, Int.ofNat_eq_natCast]
      omega

theorem Tiled.stop_le {ops : List Opcode} {start stop : Int} (tiled : Tiled start ops stop)
    (coded : ∀ op ∈ ops, op.Coded) (counted : Nat) : stop + 4 * counted ≤ start + 5 * ops.length +
      4 * ((ops.map fun op => argumentCount op.operand).foldl (· + ·) counted : Nat) := by
  induction ops generalizing start counted with
  | nil =>
      cases tiled
      simp
  | cons op ops ih =>
      obtain ⟨first, coded⟩ := List.forall_mem_cons.mp coded
      have size := first.size_le.1
      have later := ih tiled.2.2 coded (counted + argumentCount op.operand)
      simp only [List.map_cons, List.foldl_cons, List.length_cons]
      omega

theorem five_mul_lt_pow_three (x : Nat) : 5 * x < Nat.pow x 3 + 8 := by
  have cube : Nat.pow x 3 = x * x * x := Nat.pow_succ' |>.trans (by ring)
  rcases Nat.lt_or_ge x 3 with small | large
  · interval_cases x <;> decide
  · have : 9 * x ≤ x * x * x := Nat.mul_le_mul_right x (Nat.mul_le_mul large large)
    omega

/-- The sizes of all instructions add up to less than the fuel. -/
theorem Tiled.stop_lt_fuelFor {code : List Opcode} {stop : Int} (tiled : Tiled 0 code stop)
    (coded : ∀ op ∈ code, op.Coded) : stop < fuelFor code := by
  have bound := tiled.stop_le coded 2
  have grows := five_mul_lt_pow_three
    (code.length + (code.map fun op => argumentCount op.operand).foldl (· + ·) 2)
  have shape : fuelFor code =
      Nat.pow (code.length + (code.map fun op => argumentCount op.operand).foldl (· + ·) 2) 3 := rfl
  omega

theorem Opcode.Coded.end_lt {op : Opcode} (coded : op.Coded) (near : op.addr < (Nat.pow 2 52 : Nat)) :
    op.addr + op.size < (Nat.pow 2 53 : Nat) := by
  obtain ⟨size, count⟩ := coded.size_le
  have near : op.addr < 4503599627370496 := near
  show _ < (9007199254740992 : Int)
  omega

section Walk

variable {names : Names} {code : List Opcode} {stop : Int} {op : Opcode}

/-- Behind a call the walk goes on behind the jump that follows it. -/
theorem Forward.behind_call (forward : Forward code) (tiled : Tiled 0 code stop) (here : op ∈ code)
    (call : op.mnemonic = .call) {skip : Opcode} {next : Value}
    (found : fetch code (.int (op.addr + op.size)) = .ok skip)
    (lands : offset (skip.addr + skip.size) skip.operand = .ok next) : Behind code op.addr next := by
  obtain ⟨_, mem, addr, -, n, distance⟩ := forward.skips op here call
  cases (addr ▸ tiled.readable _ mem).symm.trans found
  rw [distance] at lands
  cases lands
  have := tiled.size_pos here
  have := tiled.size_pos mem
  exact behind_int (by omega)

/-- The instruction five bytes before the target of a condition is not before the condition, and where its operand is
positive it leads behind itself. -/
theorem Tiled.behind_else (tiled : Tiled 0 code stop) (coded : ∀ op ∈ code, op.Coded)
    (small : ∀ op ∈ code, op.addr < (Nat.pow 2 52 : Nat)) {n : Nat} (five : op.size = 5) {skip : Opcode} {last : Value}
    (found : fetch code (.int (-5 + (op.addr + op.size + n))) = .ok skip) (turns : direction skip.operand = .ok .gt)
    (lands : offset (skip.addr + skip.size) skip.operand = .ok last) : Behind code op.addr last := by
  obtain ⟨mem, place⟩ := fetch_eq_ok found
  have addr : -5 + (op.addr + op.size + n) = skip.addr := Option.some.inj place
  have pos := tiled.size_pos mem
  have inside := tiled.inside mem
  have near := (coded skip mem).end_lt (small skip mem)
  obtain ⟨base, whole⟩ := Int.eq_ofNat_of_zero_le (show 0 ≤ skip.addr + skip.size by omega)
  rw [whole] at lands near
  exact behind_offset (by omega) (Int.ofNat_lt.mp near) turns lands

/-- A call is longer than it has arguments, so that the fuel left for the last of them is still enough. -/
theorem Forward.enough_argument (forward : Forward code) (tiled : Tiled 0 code stop) (here : op ∈ code)
    (call : op.mnemonic = .call) {targets : List Int} (operand : op.operand = .list (targets.map .int))
    (size : op.size = 5 + 4 * targets.length) {fuel : Nat} (left : stop - op.addr ≤ fuel + targets.length) {t : Int}
    (mem : .int t ∈ targets.map Value.int) : Enough code stop fuel (.int t) := by
  have ends := tiled.end_le here
  refine ⟨by omega, ?_⟩
  intro other found
  have behind := behind_int (forward.arguments op here call _ operand t mem) other found
  have := tiled.next_le here (fetch_eq_ok found).1 behind
  omega

/-- More fuel than bytes left to walk through changes nothing. The induction is on the fuel; the addresses that the walk
goes on to lie behind the instruction it stands at, so that each of them leaves fewer bytes. -/
theorem walk_agree (tiled : Tiled 0 code stop) (coded : ∀ op ∈ code, op.Coded) (forward : Forward code)
    (small : ∀ op ∈ code, op.addr < (Nat.pow 2 52 : Nat)) {f : Nat} : ∀ {g : Nat} {v : Value}, f ≤ g →
      Enough code stop f v → Agree names code f g v := by
  induction f using Nat.strong_induction_on with
  | _ f ih =>
  intro g v le enough until_ stack
  obtain ⟨f, rfl⟩ := Nat.exists_eq_add_one.mpr enough.1
  obtain ⟨g, rfl⟩ := Nat.exists_eq_add_one.mpr (Nat.lt_of_lt_of_le enough.1 le)
  cases reads : fetch code v with
  | error fault =>
      have missing : ∀ fuel, walk names code (fuel + 1) v until_ stack = .error fault := by
        intro fuel
        rw [walk, reads]
        rfl
      rw [missing, missing]
      apply Settled.same
      rintro ⟨⟩
      exact fetch_ne code v reads
  | ok op =>
      have here := (fetch_eq_ok reads).1
      have left := enough.2 op reads
      have pos := tiled.size_pos here
      have inside := tiled.inside here
      -- behind the instruction there are fewer bytes than from it on, so one unit of fuel less is enough there
      have onward : ∀ {address}, Behind code op.addr address → Agree names code f g address := by
        intro address behind
        exact ih f (Nat.lt_succ_self f) (Nat.le_of_succ_le_succ le) (.behind inside.2 (by omega) behind)
      have next := onward (behind_int (show op.addr < op.addr + op.size by omega))
      cases clear : reached until_ op.addr with
      | true =>
          have stops : ∀ fuel, walk names code (fuel + 1) v until_ stack = .ok stack := by
            intro fuel
            rw [walk, reads, ok_bind]
            simp only [clear, if_true]
          rw [stops, stops]
          exact .ok stack
      | false =>
          rcases (coded op here).kinds with ending | pop | ⟨call, targets, operand, size⟩ | ⟨bf, size⟩ | ⟨i, straight⟩
          · rw [walk_ends reads ending, walk_ends reads ending]
            exact .ok stack
          · exact walk_settled_pop reads clear pop next
          · have ends := tiled.end_le here
            have arguments : Settled (walkAll names code f (targets.map .int))
                (walkAll names code g (targets.map .int)) := by
              apply walkAll_settled (Nat.le_of_succ_le_succ le) (by rw [List.length_map]; omega)
              rw [List.length_map]
              intro f' g' low high le' jump mem
              obtain ⟨t, -, rfl⟩ := List.mem_map.mp mem
              exact ih f' (by omega) le' (forward.enough_argument tiled here call operand size (by omega) mem)
            apply walk_settled_call reads clear call operand arguments
            intro skip address found lands
            exact onward (forward.behind_call tiled here call found lands)
          · obtain ⟨n, operand⟩ := forward.conditions op here bf
            apply walk_settled_bf reads clear bf operand next (onward (behind_int (by omega)))
            intro skip address found turns lands
            exact onward (tiled.behind_else coded small size found turns lands)
          · exact walk_settled_straight reads clear straight next

end Walk

/-- The walk through loaded code that jumps forward ends, wherever it starts and wherever it is to stop: with the fuel
that the code is given it has an answer, and any more of it gives the same one. A condition may be ended by whatever
instruction stands before its target, also by one that pushes a real number. The bound on the segment is far above the
32 bits that a file has for its size. -/
theorem walk_ends_of_forward {e : Edition} {size : Nat} {rest tail : Bytes} {code : List Opcode}
    (loaded : Opcode.decodeAll e size 0 rest = .ok (code, tail)) (small : size ≤ Nat.pow 2 52) (forward : Forward code)
    (names : Names) (start until_ : Value) (stack : List Node) :
    walk names code (fuelFor code) start until_ stack ≠ .error .tooDeep ∧
      ∀ fuel, fuelFor code ≤ fuel →
        walk names code fuel start until_ stack = walk names code (fuelFor code) start until_ stack := by
  obtain ⟨coded, stop, tiled⟩ := Opcode.of_decodeAll loaded
  have near : ∀ op ∈ code, op.addr < (Nat.pow 2 52 : Nat) := by
    intro op mem
    exact Int.lt_of_lt_of_le ((Opcode.decodeAll_covers loaded tiled).2 op mem) (Int.ofNat_le.mpr small)
  have bound := Tiled.stop_lt_fuelFor tiled coded
  have enough : Enough code stop (fuelFor code) start := by
    refine ⟨by omega, ?_⟩
    intro op reads
    have := Tiled.inside tiled (fetch_eq_ok reads).1
    omega
  refine ⟨(walk_agree tiled coded forward near (Nat.le_refl _) enough until_ stack).2, ?_⟩
  intro fuel more
  exact (walk_agree tiled coded forward near more enough until_ stack).1.symm

/-- A call with one argument, then a condition whose body ends with a push of the number one: the distance to the end of
the `else` part is this number. -/
def elseSample : List Opcode :=
  [⟨.pushiib, .int 0, 2, 0⟩, ⟨.call, .list [.int 16], 9, 2⟩, ⟨.bra, .int 2, 5, 11⟩, ⟨.push0, .null, 1, 16⟩,
   ⟨.brk, .null, 1, 17⟩, ⟨.push1, .null, 1, 18⟩, ⟨.bf, .int 5, 5, 19⟩,
   ⟨.pushf, .real (Single.mk 0x3f800000).widen, 5, 24⟩, ⟨.push1, .null, 1, 29⟩, ⟨.brk, .null, 1, 30⟩]

theorem forward_elseSample : Forward elseSample := by
  constructor
  · intro op mem call
    fin_cases mem <;> cases call
    rintro _ ⟨⟩ n target
    cases List.mem_singleton.mp target
    decide
  · intro op mem call
    fin_cases mem <;> cases call
    exact ⟨⟨.bra, .int 2, 5, 11⟩, .tail _ (.tail _ (.head _)), rfl, rfl, 2, rfl⟩
  · intro op mem bf
    fin_cases mem <;> cases bf
    exact ⟨5, rfl⟩

theorem coded_elseSample : ∀ op ∈ elseSample, op.Coded := by
  intro op mem
  fin_cases mem
  · exact ⟨rfl, 1, rfl, .integer .u8 0 rfl (by decide) (by decide) (by decide) (by decide)⟩
  · exact ⟨rfl, 8, rfl, .call [16] (by decide) (by decide)⟩
  · exact ⟨rfl, 4, rfl, .integer .i32 2 rfl (by decide) (by decide) (by decide) (by decide)⟩
  · exact ⟨rfl, 0, rfl, .none rfl⟩
  · exact ⟨rfl, 0, rfl, .none rfl⟩
  · exact ⟨rfl, 0, rfl, .none rfl⟩
  · exact ⟨rfl, 4, rfl, .integer .i32 5 rfl (by decide) (by decide) (by decide) (by decide)⟩
  · exact ⟨rfl, 4, rfl, .real _⟩
  · exact ⟨rfl, 0, rfl, .none rfl⟩
  · exact ⟨rfl, 0, rfl, .none rfl⟩

theorem walk_ends_of_forward_elseSample :
    Forward elseSample ∧ ∃ rest, Opcode.decodeAll .seven 31 0 rest = .ok (elseSample, []) ∧
      walk ⟨[], ["f"]⟩ elseSample (fuelFor elseSample) (.int 0) .null [] ≠ .error .tooDeep := by
  have tiled : Tiled (0 : Nat) elseSample (31 : Nat) := by
    simp [Tiled, elseSample]
  have numbers : ∀ op ∈ elseSample, op.operand.IsNumber := by decide +kernel
  obtain ⟨rest, -, -, decoded⟩ := Opcode.decodeAll_encodeAll .seven tiled coded_elseSample numbers
  have loaded := decoded []
  refine ⟨forward_elseSample, rest ++ [], loaded, ?_⟩
  exact (walk_ends_of_forward loaded (by decide) forward_elseSample _ _ _ _).1

end GameData.Script
