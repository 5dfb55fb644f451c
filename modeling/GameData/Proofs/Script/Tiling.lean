import GameData.Proofs.Loading
import GameData.Script.Decompile

/-!
Code without gaps.

`Tiled start ops stop` says that the instructions fill the addresses from `start` to `stop`, each directly after
the one before it. In such code an address belongs to one instruction at most, so that fetching from it finds
every instruction under its own address, and a walk stops at each one that ends it.
-/
namespace GameData.Script

/-- The instructions fill the addresses from the first one up to the last one, in order and without gaps. -/
def Tiled : Int → List Opcode → Int → Prop
  | start, [], stop => start = stop
  | start, op :: ops, stop => op.addr = start ∧ 0 < op.size ∧ Tiled (start + op.size) ops stop

def Readable (code : List Opcode) : Prop := ∀ op ∈ code, fetch code (.int op.addr) = .ok op

namespace Tiled

theorem trans_eq {ops : List Opcode} {start middle stop : Int} (h : Tiled start ops middle) (same : middle = stop) :
    Tiled start ops stop := same ▸ h

theorem append {ops more : List Opcode} {start middle stop : Int} (h : Tiled start ops middle)
    (k : Tiled middle more stop) : Tiled start (ops ++ more) stop := by
  induction ops generalizing start with
  | nil =>
      cases h
      exact k
  | cons op ops ih => exact ⟨h.1, h.2.1, ih h.2.2⟩

theorem le {ops : List Opcode} {start stop : Int} (h : Tiled start ops stop) : start ≤ stop := by
  induction ops generalizing start with
  | nil => exact Int.le_of_eq h
  | cons op ops ih =>
      have := ih h.2.2
      have := h.2.1
      omega

theorem first {ops : List Opcode} {start stop : Int} (h : Tiled start ops stop) (lt : start < stop) :
    ∃ op ∈ ops, op.addr = start := by
  cases ops with
  | nil =>
      have : start = stop := h
      omega
  | cons op ops => exact ⟨op, List.mem_cons_self, h.1⟩

/-- Every instruction lies between the two ends. -/
theorem inside {ops : List Opcode} {start stop : Int} (h : Tiled start ops stop) {op : Opcode} (mem : op ∈ ops) :
    start ≤ op.addr ∧ op.addr < stop := by
  induction ops generalizing start with
  | nil => cases mem
  | cons first ops ih =>
      obtain ⟨addr, size, rest⟩ := h
      have := rest.le
      rcases List.mem_cons.mp mem with rfl | later
      · omega
      · have := ih rest later
        omega

theorem pairwise_addr {ops : List Opcode} {start stop : Int} (h : Tiled start ops stop) :
    (ops.map Opcode.addr).Pairwise (· < ·) := by
  induction ops generalizing start with
  | nil => exact .nil
  | cons op ops ih =>
      obtain ⟨addr, size, rest⟩ := h
      refine .cons ?_ (ih rest)
      intro a mem
      obtain ⟨later, laterMem, rfl⟩ := List.mem_map.mp mem
      have := rest.inside laterMem
      omega

/-- Two instructions at one address are the same. -/
theorem unique {ops : List Opcode} {start stop : Int} (h : Tiled start ops stop) {a b : Opcode} (ha : a ∈ ops)
    (hb : b ∈ ops) (same : a.addr = b.addr) : a = b := by
  induction ops generalizing start with
  | nil => cases ha
  | cons first ops ih =>
      obtain ⟨addr, size, rest⟩ := h
      rcases List.mem_cons.mp ha with rfl | laterA <;> rcases List.mem_cons.mp hb with rfl | laterB
      · rfl
      · have := rest.inside laterB
        omega
      · have := rest.inside laterA
        omega
      · exact ih rest laterA laterB

theorem size_pos {ops : List Opcode} {start stop : Int} (h : Tiled start ops stop) {op : Opcode} (mem : op ∈ ops) :
    0 < op.size := by
  induction ops generalizing start with
  | nil => cases mem
  | cons first ops ih =>
      rcases List.mem_cons.mp mem with rfl | later
      · exact h.2.1
      · exact ih h.2.2 later

theorem end_le {ops : List Opcode} {start stop : Int} (h : Tiled start ops stop) {op : Opcode} (mem : op ∈ ops) :
    op.addr + op.size ≤ stop := by
  induction ops generalizing start with
  | nil => cases mem
  | cons first ops ih =>
      obtain ⟨rfl, -, rest⟩ := h
      rcases List.mem_cons.mp mem with rfl | later
      · exact rest.le
      · exact ih rest later

theorem next_le {ops : List Opcode} {start stop : Int} (h : Tiled start ops stop) {a b : Opcode} (ha : a ∈ ops)
    (hb : b ∈ ops) (lt : a.addr < b.addr) : a.addr + a.size ≤ b.addr := by
  induction ops generalizing start with
  | nil => cases ha
  | cons first ops ih =>
      obtain ⟨rfl, pos, rest⟩ := h
      rcases List.mem_cons.mp ha with rfl | laterA <;> rcases List.mem_cons.mp hb with rfl | laterB
      · omega
      · exact (rest.inside laterB).1
      · have := rest.inside laterA
        omega
      · exact ih rest laterA laterB

theorem readable {ops : List Opcode} {start stop : Int} (h : Tiled start ops stop) : Readable ops := by
  intro op mem
  have found : ops.reverse.find? (fun o => o.addr == op.addr) = some op := by
    cases hf : ops.reverse.find? (fun o => o.addr == op.addr) with
    | none =>
        have := List.find?_eq_none.mp hf op (List.mem_reverse.mpr mem)
        exact absurd (beq_self_eq_true _) this
    | some other =>
        have equal := List.find?_some hf
        have same : other.addr = op.addr := eq_of_beq equal
        exact congrArg some (h.unique (List.mem_reverse.mp (List.mem_of_find?_eq_some hf)) mem same)
  simp only [fetch, Option.bind_some, found]

end Tiled

theorem walk_ends {names : Names} {code : List Opcode} {fuel : Nat} {v until_ : Value} {stack : List Node} {op : Opcode}
    (reads : fetch code v = .ok op) (ends : op.mnemonic = .brk ∨ op.mnemonic = .bra) :
    walk names code (fuel + 1) v until_ stack = .ok stack := by
  rw [walk, reads, ok_bind]
  rcases ends with brk | bra
  · simp only [brk]
    split <;> rfl
  · simp only [bra]
    split <;> rfl

/-- The walk ends at a `BRK`, at a `BRA` and at the address where it is told to. -/
def Stops (code : List Opcode) (until_ : Value) (a : Nat) : Prop :=
  ∃ op ∈ code, op.addr = a ∧ (reached until_ a = true ∨ op.mnemonic = .brk ∨ op.mnemonic = .bra)

theorem walk_stops {names : Names} {code : List Opcode} {fuel start : Nat} {until_ : Value} {stack : List Node}
    (readable : Readable code) (stops : Stops code until_ start) :
    walk names code (fuel + 1) (.int start) until_ stack = .ok stack := by
  obtain ⟨op, mem, addr, why⟩ := stops
  have fetched : fetch code (.int start) = .ok op := addr ▸ readable op mem
  rcases why with hit | ends
  · rw [walk, fetched, ok_bind]
    simp only [addr, hit, if_true]
  · exact walk_ends fetched ends

end GameData.Script
