import YlsFirmware.Theorems.Receive

/-! # Bytes received during transmission

What USART5 should hand over at the end of a frame is the stream of bytes received since the last end while the
line did not transmit. The receive interrupt stores and counts a byte before it tests the flag, so it hands over
all bytes received since then. -/

namespace YlsFirmware
open Packed

/-! ### The stream on USART5 -/

structure Stream where
  /-- a poll frame is being transmitted -/
  transmit : Bool
  /-- the bytes received since the last end of a frame -/
  heard : List Byte
  /-- those received while nothing was transmitted -/
  kept : List Byte
  /-- how many were received during a transmission -/
  echoes : Nat

def Stream.init : Stream := ⟨false, [], [], 0⟩

def Stream.next (t : Stream) : Irq → Stream
  | .usart5 data =>
    if t.transmit then { t with heard := t.heard ++ [data], echoes := t.echoes + 1 }
    else { t with heard := t.heard ++ [data], kept := t.kept ++ [data] }
  | .timer4 => { t with heard := [], kept := [], echoes := 0 }
  | .timer6 => { t with transmit := true }
  | .dma1Channel6 => { t with transmit := false }
  | _ => t

def stream (evs : List Irq) : Stream := Machine.run Stream.next .init evs

theorem stream_concat (evs : List Irq) (e : Irq) : stream (evs ++ [e]) = (stream evs).next e :=
  Machine.run_concat _ _ _ _

/-- Fewer than 200 bytes are received between two ends of a frame. -/
def Short (evs : List Irq) : Prop := ∀ as bs, evs = as ++ bs → (stream as).heard.length < 200

theorem Short.init {evs : List Irq} {e : Irq} (h : Short (evs ++ [e])) : Short evs := fun as bs hsplit =>
  h as (bs ++ [e]) (by rw [hsplit, List.append_assoc])

theorem short_of_length {evs : List Irq} (h : evs.length < 200) : Short evs := by
  have hle : ∀ as : List Irq, (stream as).heard.length ≤ as.length := by
    intro as
    induction as using List.reverseRecOn with
    | nil => exact Nat.le_refl 0
    | append_singleton as e ih =>
      rw [stream_concat, List.length_append]
      cases e with
      | usart5 data =>
        simp only [Stream.next]
        split_ifs <;> simpa using ih
      | timer4 => exact Nat.zero_le _
      | _ => exact Nat.le_add_right_of_le ih
  intro as bs hsplit
  have hlen := hle as
  rw [hsplit, List.length_append] at h
  omega

theorem kept_of_heard (evs : List Irq) :
    (stream evs).kept.length + (stream evs).echoes = (stream evs).heard.length ∧
      ((stream evs).echoes = 0 → (stream evs).kept = (stream evs).heard) := by
  have hstep : ∀ (t : Stream) e, t.kept.length + t.echoes = t.heard.length ∧ (t.echoes = 0 → t.kept = t.heard) →
      (t.next e).kept.length + (t.next e).echoes = (t.next e).heard.length ∧
        ((t.next e).echoes = 0 → (t.next e).kept = (t.next e).heard) := by
    rintro t e ⟨hlen, heq⟩
    cases e with
    | usart5 data =>
      simp only [Stream.next]
      split_ifs
      · simp only [List.length_append, List.length_singleton]
        exact ⟨by omega, nofun⟩
      · simp only [List.length_append, List.length_singleton]
        exact ⟨by omega, fun h => by rw [heq h]⟩
    | timer4 => exact ⟨rfl, fun _ => rfl⟩
    | _ => exact ⟨hlen, heq⟩
  exact Machine.run_invariant hstep ⟨rfl, fun _ => rfl⟩ evs

/-! ### The line and the stream -/

/-- The line holds the bytes of the stream, filtered or not. -/
structure Board.Holds (b : Board) (t : Stream) : Prop where
  usart0 : b.usart0.counter < 200 ∧ b.usart0.transmit = false
  transmit : b.usart5.transmit = t.transmit
  counter : b.usart5.counter = t.heard.length
  bufferRx : read b.usart5.bufferRx 0 t.heard.length = t.heard

theorem holds_irq {b : Board} {t : Stream} (h : b.Holds t) {e : Irq} (hshort : (t.next e).heard.length < 200) :
    ∃ c, irq b e = some c ∧ c.Holds (t.next e) := by
  obtain ⟨⟨h0, hidle⟩, htransmit, hcounter, hbuffer⟩ := h
  cases e with
  | usart0 data =>
    obtain ⟨l, hl, ht, -, hc⟩ := receive_spec h0 data
    refine ⟨{ b with usart0 := l }, by rw [irq, hl]; rfl, ⟨⟨?_, ht.trans hidle⟩, htransmit, hcounter, hbuffer⟩⟩
    simp only [hc, hidle, true_and]
    split_ifs <;> omega
  | usart5 data =>
    have hheard : (t.next (.usart5 data)).heard = t.heard ++ [data] := by
      simp only [Stream.next]
      split_ifs <;> rfl
    rw [hheard, List.length_append, List.length_singleton] at hshort
    obtain ⟨l, hl, ht, hbuf, hc⟩ := @receive_spec b.usart5 (by omega) data
    rw [if_neg (by omega)] at hc
    refine ⟨{ b with usart5 := l }, by rw [irq, hl]; rfl, ⟨⟨h0, hidle⟩, ?_, ?_, ?_⟩⟩
    · simp only [Stream.next]
      split_ifs <;> exact ht.trans htransmit
    · rw [hheard]
      simp [hc, hcounter]
    · rw [hheard]
      simp only [hbuf, hcounter, List.length_append, List.length_singleton]
      exact read_update hbuffer data
  | timer2 => exact ⟨_, rfl, ⟨⟨by simp [Line.endRx], hidle⟩, htransmit, hcounter, hbuffer⟩⟩
  | timer4 => exact ⟨_, rfl, ⟨⟨h0, hidle⟩, htransmit, rfl, rfl⟩⟩
  | timer6 => exact ⟨_, rfl, ⟨⟨h0, hidle⟩, rfl, hcounter, hbuffer⟩⟩
  | dma1Channel6 => exact ⟨_, rfl, ⟨⟨h0, hidle⟩, rfl, hcounter, hbuffer⟩⟩
  | dma1Channel7 => exact ⟨_, rfl, ⟨⟨h0, rfl⟩, htransmit, hcounter, hbuffer⟩⟩
  | udp message => exact ⟨_, rfl, ⟨⟨h0, hidle⟩, htransmit, hcounter, hbuffer⟩⟩

theorem holds_exec {evs : List Irq} (h : Short evs) :
    ∃ b, Machine.exec irq .init evs = some b ∧ b.Holds (stream evs) := by
  induction evs using List.reverseRecOn with
  | nil => exact ⟨.init, rfl, ⟨⟨by decide, rfl⟩, rfl, rfl, rfl⟩⟩
  | append_singleton evs e ih =>
    obtain ⟨b, hb, hholds⟩ := ih h.init
    have hshort := h (evs ++ [e]) [] (List.append_nil _).symm
    rw [stream_concat] at hshort ⊢
    obtain ⟨c, hc, hc'⟩ := holds_irq hholds hshort
    exact ⟨c, by rw [Machine.exec_concat, hb]; exact hc, hc'⟩

/-- At every end of a frame, the line hands over exactly the bytes received since the last one while nothing was
    transmitted. -/
def Delivers (evs : List Irq) : Prop :=
  ∀ as bs, evs = as ++ .timer4 :: bs → ∃ b, Machine.exec irq .init as = some b ∧
    read b.usart5.bufferRx 0 b.usart5.counter = (stream as).kept

theorem Board.Holds.read_eq_kept_iff {evs : List Irq} {b : Board} (h : b.Holds (stream evs)) :
    read b.usart5.bufferRx 0 b.usart5.counter = (stream evs).kept ↔ (stream evs).echoes = 0 := by
  obtain ⟨hlen, heq⟩ := kept_of_heard evs
  rw [h.counter, h.bufferRx]
  constructor
  · intro hkept
    rw [← hkept] at hlen
    omega
  · exact fun hzero => (heq hzero).symm

/-- Where fewer than 200 bytes come between two ends of a frame, every end hands over the bytes it should exactly
    if none has come during a transmission since the last end. -/
theorem delivers_iff {evs : List Irq} (h : Short evs) :
    Delivers evs ↔ ∀ as bs, evs = as ++ .timer4 :: bs → (stream as).echoes = 0 := by
  refine forall₃_congr fun as bs hsplit => ?_
  have hshort : Short as := fun as' bs' hsplit' =>
    h as' (bs' ++ .timer4 :: bs) (by rw [hsplit, hsplit', List.append_assoc])
  obtain ⟨b, hb, hholds⟩ := holds_exec hshort
  constructor
  · rintro ⟨b', hb', hread⟩
    cases hb.symm.trans hb'
    exact hholds.read_eq_kept_iff.mp hread
  · exact fun hzero => ⟨b, hb, hholds.read_eq_kept_iff.mpr hzero⟩

/-- The echo of a byte of a poll frame is handed over in front of the reply. -/
theorem not_delivers_echo :
    Short [.timer6, .usart5 1, .dma1Channel6, .usart5 2, .timer4] ∧
      ¬ Delivers [.timer6, .usart5 1, .dma1Channel6, .usart5 2, .timer4] := by
  refine ⟨short_of_length (by decide), fun h => ?_⟩
  obtain ⟨b, hb, hread⟩ := h [.timer6, .usart5 1, .dma1Channel6, .usart5 2] [] rfl
  cases hb
  exact absurd hread (by decide)

theorem delivers_reply : Delivers [.timer6, .dma1Channel6, .usart5 0, .timer4] := by
  refine (delivers_iff (short_of_length (by decide))).mpr fun as bs hsplit => ?_
  rcases as with _ | ⟨e₁, _ | ⟨e₂, _ | ⟨e₃, _ | ⟨e₄, as⟩⟩⟩⟩ <;> simp at hsplit
  obtain ⟨rfl, rfl, rfl, -⟩ := hsplit
  rfl

end YlsFirmware
