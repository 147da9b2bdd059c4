import YlsFirmware.Lib.Overflow
import YlsFirmware.Theorems.Ownership
import YlsFirmware.Theorems.Receive

/-! # Bursts

The bytes that a line receives up to the end of a frame. The byte that would fill the buffer empties it, so of a
burst of 200 bytes or more the end is handed over as a frame. -/

namespace YlsFirmware
open Packed

inductive Port where
  | usart0 | usart5
  deriving DecidableEq

def Board.line (b : Board) : Port → Line
  | .usart0 => b.usart0
  | .usart5 => b.usart5

namespace Port

def data : Port → Irq → Option Byte
  | .usart0, .usart0 x => some x
  | .usart5, .usart5 x => some x
  | _, _ => none

/-- The timer interrupt that ends a frame on the line. -/
def endRx : Port → Irq
  | .usart0 => .timer2
  | .usart5 => .timer4

/-- The interrupt that starts a transmission on the line, if one does. -/
def startTx : Port → Option Irq
  | .usart0 => none
  | .usart5 => some .timer6

/-- The bytes that the line receives. -/
def burst (p : Port) (evs : List Irq) : List Byte := evs.filterMap p.data

/-- No frame is ended on the line and no transmission begun. -/
def Quiet (p : Port) (evs : List Irq) : Prop := ∀ e ∈ evs, e ≠ p.endRx ∧ p.startTx ≠ some e

end Port

/-- Nothing has been received since the last end of a frame, and nothing is transmitted. -/
def Line.Idle (l : Line) : Prop := l.counter = 0 ∧ l.transmit = false

/-! ### The line -/

/-- The line does not transmit and holds these bytes. -/
structure Line.Has (l : Line) (acc : List Byte) : Prop where
  transmit : l.transmit = false
  counter : l.counter = acc.length
  lt : acc.length < 200
  bufferRx : read l.bufferRx 0 acc.length = acc

theorem Line.Idle.has {l : Line} (h : l.Idle) : l.Has [] := ⟨h.2, h.1, by decide, rfl⟩

theorem Line.Has.receive {l : Line} {acc : List Byte} (h : l.Has acc) (data : Byte) :
    ∃ l', l.receive data = some l' ∧ l'.Has (Overflow.push 200 acc data) := by
  obtain ⟨htransmit, hcounter, hlt, hbuffer⟩ := h
  obtain ⟨l', hl', ht, hbuf, hc⟩ := @receive_spec l (by omega) data
  refine ⟨l', hl', ht.trans htransmit, ?_, Overflow.length_push_lt (by decide) acc data, ?_⟩
  · rw [hc, hcounter, Overflow.push]
    by_cases h199 : acc.length = 199
    · simp [htransmit, h199]
    · rw [if_neg fun h => h199 h.2, if_pos (by omega), List.length_append, List.length_singleton]
  · rw [hbuf, hcounter, Overflow.push]
    split_ifs
    · rw [List.length_append]
      exact read_update hbuffer data
    · rfl

/-- What happens to a line outside the ends of its frames and the starts of its transmissions: it receives its own
    bytes, and a transmission may end. -/
theorem line_irq {p : Port} {b c : Board} {e : Irq} (hq : e ≠ p.endRx ∧ p.startTx ≠ some e) (hc : irq b e = some c) :
    (∃ data, p.data e = some data ∧ (b.line p).receive data = some (c.line p)) ∨
      p.data e = none ∧ (c.line p = b.line p ∨ c.line p = { b.line p with transmit := false }) := by
  cases e with
  | usart0 data =>
    rw [irq, Option.map_eq_some_iff] at hc
    obtain ⟨l, hl, rfl⟩ := hc
    cases p with
    | usart0 => exact .inl ⟨data, rfl, hl⟩
    | usart5 => exact .inr ⟨rfl, .inl rfl⟩
  | usart5 data =>
    rw [irq, Option.map_eq_some_iff] at hc
    obtain ⟨l, hl, rfl⟩ := hc
    cases p with
    | usart0 => exact .inr ⟨rfl, .inl rfl⟩
    | usart5 => exact .inl ⟨data, rfl, hl⟩
  | timer2 =>
    cases hc
    cases p with
    | usart0 => exact absurd rfl hq.1
    | usart5 => exact .inr ⟨rfl, .inl rfl⟩
  | timer4 =>
    cases hc
    cases p with
    | usart0 => exact .inr ⟨rfl, .inl rfl⟩
    | usart5 => exact absurd rfl hq.1
  | timer6 =>
    cases hc
    cases p with
    | usart0 => exact .inr ⟨rfl, .inl rfl⟩
    | usart5 => exact absurd rfl hq.2
  | dma1Channel6 =>
    cases hc
    cases p with
    | usart0 => exact .inr ⟨rfl, .inl rfl⟩
    | usart5 => exact .inr ⟨rfl, .inr rfl⟩
  | dma1Channel7 =>
    cases hc
    cases p with
    | usart0 => exact .inr ⟨rfl, .inr rfl⟩
    | usart5 => exact .inr ⟨rfl, .inl rfl⟩
  | udp message =>
    cases hc
    cases p <;> exact .inr ⟨rfl, .inl rfl⟩

theorem has_irq {p : Port} {b c : Board} {acc : List Byte} (h : (b.line p).Has acc) {e : Irq}
    (hq : e ≠ p.endRx ∧ p.startTx ≠ some e) (hc : irq b e = some c) :
    (c.line p).Has ((p.data e).toList.foldl (Overflow.push 200) acc) := by
  rcases line_irq hq hc with ⟨data, hdata, hl⟩ | ⟨hdata, hl | hl⟩
  · obtain ⟨l, hl', hhas⟩ := h.receive data
    rw [hl, Option.some.injEq] at hl'
    rw [hdata, hl']
    exact hhas
  · rw [hdata, hl]
    exact h
  · rw [hdata, hl]
    exact ⟨rfl, h.counter, h.lt, h.bufferRx⟩

theorem has_exec {p : Port} {b b' : Board} {acc : List Byte} (h : (b.line p).Has acc) {evs : List Irq}
    (hq : p.Quiet evs) (he : Machine.exec irq b evs = some b') :
    (b'.line p).Has ((p.burst evs).foldl (Overflow.push 200) acc) := by
  induction evs generalizing b acc with
  | nil =>
    cases he
    exact h
  | cons e evs ih =>
    rw [Machine.exec_cons, Option.bind_eq_some_iff] at he
    obtain ⟨c, hc, he⟩ := he
    have hburst : p.burst (e :: evs) = (p.data e).toList ++ p.burst evs := by
      rw [Port.burst, List.filterMap_cons]
      cases p.data e <;> rfl
    rw [hburst, List.foldl_append]
    exact ih (has_irq h (hq e List.mem_cons_self) hc) (fun e' he' => hq e' (List.mem_cons_of_mem _ he')) he

/-- At the end of a burst an idle line holds the bytes after the last multiple of 200. -/
theorem has_tail {p : Port} {b b' : Board} (h : (b.line p).Idle) {evs : List Irq} (hq : p.Quiet evs)
    (he : Machine.exec irq b evs = some b') : (b'.line p).Has (Overflow.tail 200 (p.burst evs)) := by
  rw [← Overflow.foldl_push (by decide)]
  exact has_exec h.has hq he

/-! ### The end of the frame -/

/-- A burst that the buffer has room for is handed over as it is, a longer one changes nothing in the packets. -/
structure Framed (p : Port) (b : Board) (bs : List Byte) : Prop where
  whole : bs.length < usartRxBufferSize →
    ∃ message, b.events p.endRx = [.frame message bs.length] ∧ read message 0 bs.length = bs
  discarded : usartRxBufferSize ≤ bs.length → ∀ c, irq b p.endRx = some c → c.app.ylsToYVPack = b.app.ylsToYVPack

theorem events_endRx (p : Port) (b : Board) :
    b.events p.endRx = [.frame (b.line p).bufferRx (b.line p).counter] := by
  cases p <;> rfl

theorem ylsToYVPack_checkMessageUART_eq_iff {s : State} (hs : s.counters.InRange) {message : Memory} {size : Nat} :
    (checkMessageUART s message size).ylsToYVPack = s.ylsToYVPack ↔ Harmless s (.frame message size) := by
  rw [← step_eq_self_iff hs (by nofun)]
  constructor
  · exact fun h => congrFun h _
  · intro h
    funext k
    by_cases hk : k = s.currentTickTxEth
    · rw [hk]
      exact h
    · rw [checkMessageUART, State.ylsToYVPack_store, if_neg hk]

theorem app_endRx {p : Port} {b c : Board} (hs : b.app.counters.InRange) {acc : List Byte} (h : (b.line p).Has acc)
    (hc : irq b p.endRx = some c) : c.app = checkMessageUART b.app (ofBytes acc) acc.length := by
  have happ : c.app = checkMessageUART b.app (b.line p).bufferRx (b.line p).counter := by
    rw [app_irq hc, events_endRx]
    rfl
  have hbytes : ∀ i < acc.length, (b.line p).bufferRx i = ofBytes acc i := fun i hi => by
    rw [← Nat.zero_add i, (read_eq_iff rfl).mp h.bufferRx i hi, Nat.zero_add, ofBytes]
  rw [happ, h.counter, checkMessageUART, checkMessageUART, replyStores_congr hs hbytes]

theorem discarded_iff {p : Port} {b : Board} (hs : b.app.counters.InRange) {acc : List Byte}
    (h : (b.line p).Has acc) :
    (∀ c, irq b p.endRx = some c → c.app.ylsToYVPack = b.app.ylsToYVPack) ↔
      Harmless b.app (.frame (ofBytes acc) acc.length) := by
  rw [← ylsToYVPack_checkMessageUART_eq_iff hs]
  constructor
  · intro hkept
    have hend : ∃ c, irq b p.endRx = some c := by
      cases p <;> exact ⟨_, rfl⟩
    obtain ⟨c, hc⟩ := hend
    rw [← app_endRx hs h hc]
    exact hkept c hc
  · intro hkept c hc
    rw [app_endRx hs h hc]
    exact hkept

/-- A burst on an idle line is treated as it should if it is shorter than the buffer, or if the frame that its last bytes
    make up, those after a multiple of 200, has what makes it harmless. -/
theorem framed_iff_of_harmless {p : Port} {pre evs : List Irq} {b b' : Board}
    (hpre : Machine.exec irq .init pre = some b) (hidle : (b.line p).Idle) (hq : p.Quiet evs)
    (he : Machine.exec irq b evs = some b') {P : Prop}
    (hP : Harmless b'.app (.frame (ofBytes (Overflow.tail 200 (p.burst evs))) ((p.burst evs).length % 200)) ↔ P) :
    Framed p b' (p.burst evs) ↔ (usartRxBufferSize ≤ (p.burst evs).length → P) := by
  rw [← hP]
  have hhas := has_tail hidle hq he
  have hs : b'.app.counters.InRange := by
    have hrun : Machine.exec irq .init (pre ++ evs) = some b' := by
      rw [Machine.exec_append, hpre, Option.bind_some, he]
    exact (reachable_app hrun).inRange
  rw [← Overflow.length_tail]
  constructor
  · exact fun h hlong => (discarded_iff hs hhas).mp (h.discarded hlong)
  · intro h
    refine ⟨fun hshort => ?_, fun hlong => (discarded_iff hs hhas).mpr (h hlong)⟩
    have hall : Overflow.tail 200 (p.burst evs) = p.burst evs := Overflow.tail_of_lt hshort
    rw [hall] at hhas
    exact ⟨(b'.line p).bufferRx, by rw [events_endRx, hhas.counter], hhas.bufferRx⟩

/-- A burst on an idle line is treated as it should exactly if it is shorter than the buffer, or if the frame that
    its last bytes make up, those after a multiple of 200, is one that changes nothing. -/
theorem framed_iff {p : Port} {pre evs : List Irq} {b b' : Board} (hpre : Machine.exec irq .init pre = some b)
    (hidle : (b.line p).Idle) (hq : p.Quiet evs) (he : Machine.exec irq b evs = some b') :
    Framed p b' (p.burst evs) ↔ (usartRxBufferSize ≤ (p.burst evs).length →
      Harmless b'.app (.frame (ofBytes (Overflow.tail 200 (p.burst evs))) ((p.burst evs).length % 200))) :=
  framed_iff_of_harmless hpre hidle hq he Iff.rfl

/-- In a run without replies in the slot of the servos, that is a frame that repeats what its device has sent. -/
theorem framed_iff_repeats {p : Port} {pre evs : List Irq} {b b' : Board} (hpre : Machine.exec irq .init pre = some b)
    (hidle : (b.line p).Idle) (hq : p.Quiet evs) (he : Machine.exec irq b evs = some b') {run : List Event}
    (hrun : after run = b'.app)
    (hservo : ∀ as e bs, run ++ [.frame (ofBytes (Overflow.tail 200 (p.burst evs))) ((p.burst evs).length % 200)] =
      as ++ e :: bs → ¬ ServoReply (after as) e) :
    Framed p b' (p.burst evs) ↔ (usartRxBufferSize ≤ (p.burst evs).length →
      Repeats run (.frame (ofBytes (Overflow.tail 200 (p.burst evs))) ((p.burst evs).length % 200))) :=
  framed_iff_of_harmless hpre hidle hq he (hrun ▸ harmless_iff_repeats hservo)

/-! ### The tail of a long burst -/

theorem exec_usart0 {b : Board} {acc : List Byte} (h : (b.line .usart0).Has acc) (bs : List Byte) :
    ∃ l, Machine.exec irq b (bs.map .usart0) = some { b with usart0 := l } := by
  induction bs generalizing b acc with
  | nil => exact ⟨b.usart0, rfl⟩
  | cons x bs ih =>
    obtain ⟨l, hl, hhas⟩ := h.receive x
    obtain ⟨l', hl'⟩ := @ih { b with usart0 := l } _ hhas
    exact ⟨l', by rw [List.map_cons, Machine.exec_cons, irq, show b.usart0.receive x = some l from hl]; exact hl'⟩

theorem burst_usart0 (bs : List Byte) : Port.usart0.burst (bs.map .usart0) = bs := by
  induction bs with
  | nil => rfl
  | cons x bs ih => exact congrArg (x :: ·) ih

theorem quiet_usart0 (bs : List Byte) : Port.usart0.Quiet (bs.map .usart0) := by
  intro e he
  obtain ⟨x, -, rfl⟩ := List.mem_map.mp he
  exact ⟨nofun, nofun⟩

/-- The board after the first poll, and 200 zeros with an answer behind them. -/
def polledBoard : Board := { Board.init with
  app := qwertyAllDevice boot
  usart5 := { Line.init with transmit := true } }

def longBurst : List Byte := List.replicate 200 0 ++ read (sealFrame (fun _ => 1) 32) 0 32

theorem tail_longBurst : Overflow.tail 200 longBurst = read (sealFrame (fun _ => 1) 32) 0 32 :=
  Overflow.tail_append List.length_replicate (by rw [length_read]; decide)

theorem length_longBurst : longBurst.length = 232 := by
  rw [longBurst, List.length_append, List.length_replicate, length_read]

/-- The answer behind the zeros is stored. -/
theorem not_framed_longBurst : Machine.exec irq .init [.timer6] = some polledBoard ∧
    (polledBoard.line .usart0).Idle ∧ Port.usart0.Quiet (longBurst.map .usart0) ∧
      ∃ b, Machine.exec irq polledBoard (longBurst.map .usart0) = some b ∧ ¬ Framed .usart0 b longBurst := by
  have hidle : (polledBoard.line .usart0).Idle := ⟨rfl, rfl⟩
  have hquiet : Port.usart0.Quiet (longBurst.map .usart0) := quiet_usart0 longBurst
  obtain ⟨l, hl⟩ := exec_usart0 hidle.has longBurst
  refine ⟨rfl, hidle, hquiet, _, hl, fun hframed => ?_⟩
  have hhas := has_tail hidle hquiet hl
  rw [burst_usart0, tail_longBurst] at hhas
  have hs : ({ polledBoard with usart0 := l } : Board).app.counters.InRange := inRange_step inRange_boot .tick
  have hlong : usartRxBufferSize ≤ longBurst.length := by
    rw [length_longBurst]
    decide
  have hans : Answers (ofBytes (read (sealFrame (fun _ => 1) 32) 0 32)) 32 := by
    have hseal : Answers (sealFrame (fun _ => 1) 32) 32 := answers_sealFrame _
    exact hseal.congr fun i hi => (ofBytes_read _ hi).symm
  have hharm := (discarded_iff hs hhas).mp (hframed.discarded hlong)
  rw [length_read] at hharm
  have hsel : polledBoard.app.counters.Selects (.bkd 1 0) := by decide
  have hset := ((hharm hans).1 (.bkd 1 0) hsel (by rw [hsel.1]; decide)).1
  exact Bool.false_ne_true ((bit_first_tick _ _).symm.trans hset)

theorem framed_reply :
    Framed .usart5 { Board.init with usart5 := ⟨false, 1, Function.update (fun _ => 0) 0 7, true⟩ } [7] := by
  have he : Machine.exec irq .init [.usart5 7] =
      some { Board.init with usart5 := ⟨false, 1, Function.update (fun _ => 0) 0 7, true⟩ } := rfl
  exact (@framed_iff .usart5 [] [.usart5 7] _ _ rfl ⟨rfl, rfl⟩ (by simp [Port.Quiet, Port.endRx, Port.startTx]) he).mpr
    fun hlong => absurd hlong (by decide)

end YlsFirmware
