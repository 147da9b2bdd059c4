import YlsFirmware.Protocol
import YlsFirmware.Crc

/-! # Global state

The counters that address the bus devices, the two packets to YV and the command rows, as uart.c and
ethernet.c share them. A handler assigns to the packet `YLSToYVPack[current_tick_tx_eth]` and to the rows
`message_from_BKD` only; its assignments are kept as data (`Store`, `RowStore`) so that what they evaluate
and what they change can both be read off. -/

namespace YlsFirmware
open Packed

def inTotalBKD : Nat := 12
def deviceInBKD : Nat := 4 * 3

/-- `++` on a `uint8_t`. -/
def incr8 (n : Nat) : Nat := (n + 1) % 256

theorem incr8_of_lt {n : Nat} (h : n < 255) : incr8 n = n + 1 := Nat.mod_eq_of_lt (by omega)

/-! ### Assignments to the packet to YV -/

/-- An assignment to a member of `YLSToYVPack[current_tick_tx_eth].data`. -/
inductive Store where
  /-- `health_abonent.data.f &= ~(1 << n)` -/
  | clear (f : HealthField) (n : Nat)
  /-- `health_abonent.data.f |= 1 << n` -/
  | set (f : HealthField) (n : Nat)
  /-- a `uint8_t` element -/
  | byte (e : Elem YLSToYVField) (v : Byte)
  /-- an `int16_t` element -/
  | half (e : Elem YLSToYVField) (v : BitVec 16)

def Store.apply (pk : Memory) : Store → Memory
  | .clear f n => f.bits.andNotBit pk n
  | .set f n => f.bits.orBit pk n
  | .byte e v => write pk (ylsToYVData.addr e) [v]
  | .half e v => write pk (ylsToYVData.addr e) (bytes16 v)

def applyStores (ws : List Store) (pk : Memory) : Memory := ws.foldl Store.apply pk

@[simp] theorem applyStores_nil (pk : Memory) : applyStores [] pk = pk := rfl

@[simp] theorem applyStores_cons (w : Store) (ws : List Store) (pk : Memory) :
    applyStores (w :: ws) pk = applyStores ws (w.apply pk) := rfl

theorem applyStores_append (as bs : List Store) (pk : Memory) :
    applyStores (as ++ bs) pk = applyStores bs (applyStores as pk) := List.foldl_append

/-! ### Assignments to the command rows -/

/-- An assignment to `message_from_BKD[row][col]`. -/
inductive RowStore where
  | byte (row col : Nat) (v : Byte)
  /-- `message_from_BKD[row][n] = Crc8(message_from_BKD[row], n)` -/
  | crc (row n : Nat)

def RowStore.row : RowStore → Nat
  | .byte r _ _ | .crc r _ => r

def RowStore.apply (rows : Nat → Memory) : RowStore → Nat → Memory
  | .byte r c v => Function.update rows r (Function.update (rows r) c v)
  | .crc r n => Function.update rows r (Function.update (rows r) n (crc8 (rows r) n))

def applyRowStores (ws : List RowStore) (rows : Nat → Memory) : Nat → Memory := ws.foldl RowStore.apply rows

@[simp] theorem applyRowStores_nil (rows : Nat → Memory) : applyRowStores [] rows = rows := rfl

@[simp] theorem applyRowStores_cons (w : RowStore) (ws : List RowStore) (rows : Nat → Memory) :
    applyRowStores (w :: ws) rows = applyRowStores ws (w.apply rows) := rfl

theorem applyRowStores_append (as bs : List RowStore) (rows : Nat → Memory) :
    applyRowStores (as ++ bs) rows = applyRowStores bs (applyRowStores as rows) := List.foldl_append

theorem applyRowStores_of_ne {ws : List RowStore} {r : Nat} (h : ∀ w ∈ ws, w.row ≠ r) (rows : Nat → Memory) :
    applyRowStores ws rows r = rows r := by
  induction ws generalizing rows with
  | nil => rfl
  | cons w ws ih =>
    rw [applyRowStores_cons, ih fun w' hw' => h w' (List.mem_cons_of_mem _ hw')]
    have hr := h w List.mem_cons_self
    cases w <;> exact Function.update_of_ne (Ne.symm hr) _ _

/-! ### State -/

structure Counters where
  currentBKD : Nat
  currentDeviceInBKDx : Nat
  currentDeviceInBKHOA : Nat
  currentDeviceInOUTSERVO : Nat
  deriving DecidableEq

structure State where
  counters : Counters
  /-- which of the two packets is current -/
  currentTickTxEth : Fin 2
  ylsToYVPack : Fin 2 → Memory
  /-- the command rows of the 12 BKD, the BKHO-A and the outer servos -/
  messageFromBKD : Nat → Memory

def boot : State where
  counters := ⟨0, 1, 1, 1⟩
  currentTickTxEth := 0
  ylsToYVPack _ _ := 0
  messageFromBKD _ _ := 0

@[simp] theorem currentTickTxEth_boot : boot.currentTickTxEth = 0 := rfl

namespace State
variable (s : State)

def store (ws : List Store) : State :=
  { s with
    ylsToYVPack := Function.update s.ylsToYVPack s.currentTickTxEth
      (applyStores ws (s.ylsToYVPack s.currentTickTxEth)) }

def storeRows (ws : List RowStore) : State := { s with messageFromBKD := applyRowStores ws s.messageFromBKD }

@[simp] theorem counters_store (ws : List Store) : (s.store ws).counters = s.counters := rfl
@[simp] theorem currentTickTxEth_store (ws : List Store) :
    (s.store ws).currentTickTxEth = s.currentTickTxEth := rfl
@[simp] theorem messageFromBKD_store (ws : List Store) : (s.store ws).messageFromBKD = s.messageFromBKD := rfl

@[simp] theorem counters_storeRows (ws : List RowStore) : (s.storeRows ws).counters = s.counters := rfl
@[simp] theorem currentTickTxEth_storeRows (ws : List RowStore) :
    (s.storeRows ws).currentTickTxEth = s.currentTickTxEth := rfl
@[simp] theorem ylsToYVPack_storeRows (ws : List RowStore) : (s.storeRows ws).ylsToYVPack = s.ylsToYVPack := rfl

def switchPacket : State := { s with currentTickTxEth := if s.currentTickTxEth ≠ 0 then 0 else 1 }

theorem currentTickTxEth_switchPacket : s.switchPacket.currentTickTxEth = 1 - s.currentTickTxEth := by
  have h : ∀ k : Fin 2, (if k ≠ 0 then (0 : Fin 2) else 1) = 1 - k := by decide
  exact h s.currentTickTxEth

theorem ylsToYVPack_store (ws : List Store) (k : Fin 2) :
    (s.store ws).ylsToYVPack k =
      if k = s.currentTickTxEth then applyStores ws (s.ylsToYVPack k) else s.ylsToYVPack k := by
  by_cases h : k = s.currentTickTxEth
  · subst h
    simp [store]
  · simp [store, h]

end State

end YlsFirmware
