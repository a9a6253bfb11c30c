-- The FIFO core between the driver and the two streams. The core itself is not a part of the
-- repository: a core is given by what an access to a register does, and what the driver can
-- rely on is what is documented of the registers.
import AesMusicPlayer.MemoryWords
import Mathlib.Data.List.Infix

open memory_words

namespace axis_fifo

/-- The registers, under the names of their offsets. -/
inductive Register
  | ISR | IER | TDFR | TDFV | TDFD | TLR | RDFR | RDFO | RDFD | RLR | SRR

/-- A core whose state is a `σ`. The streams go on between two accesses, so that an access
can change more than its register. -/
structure Core (σ : Type) where
  ioread32 : Register → σ → Word × σ
  iowrite32 : Word → Register → σ → σ

abbrev Packet := List Byte

/-- The words that a packet of this length takes. -/
def slots (len : ℕ) : ℕ := len / 4 + if len % 4 = 0 then 0 else 1

/-- What is in a core, with all that went through it. -/
structure View where
  /-- the words that still fit into the transmit FIFO -/
  room : ℕ
  /-- the words that are written and have no length yet -/
  pending : List Word
  queued : List Packet
  /-- the packets that went out as a whole -/
  out : List Packet
  /-- what is left of the packet whose length was read -/
  opened : List Word
  waiting : List Packet
  /-- all packets that came in -/
  arrived : List Packet

namespace View

/-- The packets `ps` were added to those to send, and some went out. -/
structure Sends (ps : List Packet) (v v' : View) : Prop where
  all : v'.out ++ v'.queued = v.out ++ v.queued ++ ps
  out : v.out <+: v'.out

/-- The packets `ps` were taken, and some came in. -/
def Takes (ps : List Packet) (v v' : View) : Prop :=
  ∃ new, v'.arrived = v.arrived ++ new ∧ ps ++ v'.waiting = v.waiting ++ new

/-- What the streams do. -/
structure Moves (v v' : View) : Prop where
  sends : Sends [] v v'
  takes : Takes [] v v'
  pending : v'.pending = v.pending
  opened : v'.opened = v.opened
  room : v.room ≤ v'.room

/-- The core was emptied, and then the streams went on. A packet that is cut off counts as one
that did not go out. -/
structure Emptied (v v' : View) : Prop where
  out : v.out <+: v'.out
  all : v'.out <+: v.out ++ v.queued
  queued : v'.queued = []
  arrived : ∃ lost, v'.arrived = v.arrived ++ lost ++ v'.waiting
  pending : v'.pending = []
  opened : v'.opened = []

/-- No packet is half written or half read. -/
structure Quiet (v : View) : Prop where
  pending : v.pending = []
  opened : v.opened = []

end View

/-- The words of a packet. What a last word has beyond the packet is open. -/
structure Packs (ws : List Word) (p : Packet) : Prop where
  length : ws.length = slots p.length
  bytes : (bytes ws).take p.length = p

/-- What reading a register gives and does. -/
def Reads (r : Register) (w : Word) (v v' : View) : Prop :=
  match r with
  | .TDFV => w.toNat ≤ v.room ∧ v' = v
  | .RDFO => (w ≠ 0 → v.waiting ≠ []) ∧ v' = v
  | .RLR => ∀ p ps, v.opened = [] → v.waiting = p :: ps →
      w.toNat = p.length ∧ ∃ ws, Packs ws p ∧ v' = { v with waiting := ps, opened := ws }
  | .RDFD => ∀ u us, v.opened = u :: us → w = u ∧ v' = { v with opened := us }
  | _ => v' = v

/-- The value that resets. -/
def XLLF_RESET_MASK : Word := 0xa5

/-- What writing a register does. Only the values that the driver writes are documented. -/
def Writes (w : Word) (r : Register) (v v' : View) : Prop :=
  match r with
  | .TDFD => v.room ≠ 0 → v' = { v with pending := v.pending ++ [w], room := v.room - 1 }
  | .TLR => v.pending.length = slots w.toNat →
      v' = { v with pending := [], queued := v.queued ++ [(bytes v.pending).take w.toNat] }
  | .SRR => w = XLLF_RESET_MASK →
      ∃ room, v' = { v with room, pending := [], queued := [], opened := [], waiting := [] }
  | .TDFR => w = XLLF_RESET_MASK → ∃ room, v' = { v with room, pending := [], queued := [] }
  | .RDFR => w = XLLF_RESET_MASK → v' = { v with opened := [], waiting := [] }
  | _ => v' = v

/-- A core that does at each access what is documented, after what the streams did. -/
structure Documented {σ : Type} (C : Core σ) (view : σ → View) : Prop where
  read : ∀ r s, ∃ v, (view s).Moves v ∧ Reads r (C.ioread32 r s).1 v (view (C.ioread32 r s).2)
  write : ∀ w r s, ∃ v, (view s).Moves v ∧ Writes w r v (view (C.iowrite32 w r s))

/-! ## Packets in words -/

theorem slots_of_whole {len : ℕ} (h : len % 4 = 0) : slots len = len / 4 := by
  unfold slots
  rw [if_pos h, Nat.add_zero]

theorem slots_of_rest {len : ℕ} (h : len % 4 ≠ 0) : slots len = len / 4 + 1 := by
  unfold slots
  rw [if_neg h]

theorem div_le_slots (len : ℕ) : len / 4 ≤ slots len := Nat.le_add_right ..

theorem Packs.whole {ws : List Word} {p : Packet} (h : Packs ws p) (hleft : p.length % 4 = 0) :
    memory_words.bytes (ws.take (p.length / 4)) = p := by
  have hlen := h.length.trans (slots_of_whole hleft)
  have hbytes : p.length = (memory_words.bytes ws).length := by
    rw [length_bytes, hlen]
    omega
  have hp := h.bytes
  rwa [hbytes, List.take_length, ← List.take_length (l := ws), hlen] at hp

/-- The last word has the rest of the packet. -/
theorem Packs.rest {ws : List Word} {p : Packet} (h : Packs ws p) (hleft : p.length % 4 ≠ 0) :
    memory_words.bytes (ws.take (p.length / 4)) ++
      (memory_words.bytes ((ws.drop (p.length / 4)).take 1)).take (p.length % 4) = p := by
  have hlen := h.length.trans (slots_of_rest hleft)
  have hone : (ws.drop (p.length / 4)).take 1 = ws.drop (p.length / 4) := by
    rw [List.take_of_length_le]
    rw [List.length_drop]
    omega
  have hfirst : (memory_words.bytes (ws.take (p.length / 4))).length = 4 * (p.length / 4) := by
    rw [length_bytes, List.length_take]
    omega
  calc _ = (memory_words.bytes (ws.take (p.length / 4)) ++
        memory_words.bytes (ws.drop (p.length / 4))).take (4 * (p.length / 4) + p.length % 4) := by
        rw [hone, ← hfirst, List.take_length_add_append]
    _ = p := by
        rw [← bytes_append, List.take_append_drop, Nat.div_add_mod, h.bytes]

/-! ## How these go on -/

namespace View

variable {ps qs : List Packet} {v v₁ v₂ : View}

theorem Sends.refl (v : View) : Sends [] v v := ⟨(List.append_nil _).symm, List.prefix_refl _⟩

theorem Sends.trans (h : Sends ps v v₁) (h' : Sends qs v₁ v₂) : Sends (ps ++ qs) v v₂ :=
  ⟨by rw [h'.all, h.all, List.append_assoc], h.out.trans h'.out⟩

theorem Takes.refl (v : View) : Takes [] v v :=
  ⟨[], (List.append_nil _).symm, (List.append_nil _).symm⟩

theorem Takes.trans (h : Takes ps v v₁) (h' : Takes qs v₁ v₂) : Takes (ps ++ qs) v v₂ := by
  obtain ⟨new, harr, hall⟩ := h
  obtain ⟨new', harr', hall'⟩ := h'
  refine ⟨new ++ new', by rw [harr', harr, List.append_assoc], ?_⟩
  rw [List.append_assoc, hall', ← List.append_assoc, hall, List.append_assoc]

theorem Moves.refl (v : View) : Moves v v := ⟨.refl v, .refl v, rfl, rfl, Nat.le_refl _⟩

theorem Moves.trans (h : Moves v v₁) (h' : Moves v₁ v₂) : Moves v v₂ :=
  ⟨h.sends.trans h'.sends, h.takes.trans h'.takes, h'.pending.trans h.pending,
    h'.opened.trans h.opened, h.room.trans h'.room⟩

/-- A core that is emptied at once. -/
theorem Emptied.of_moves {room : ℕ} (h : Moves v v₁) : Emptied v
    { v₁ with room, pending := [], queued := [], opened := [], waiting := [] } where
  out := h.sends.out
  all := by
    have hall := h.sends.all
    rw [List.append_nil] at hall
    exact ⟨v₁.queued, hall⟩
  queued := rfl
  arrived := by
    obtain ⟨new, harr, -⟩ := h.takes
    exact ⟨new, by rw [harr, List.append_nil]⟩
  pending := rfl
  opened := rfl

/-- Nothing goes out of an empty core. -/
theorem Emptied.moves (h : Emptied v v₁) (h' : Moves v₁ v₂) : Emptied v v₂ := by
  have hall := h'.sends.all
  rw [h.queued, List.append_nil, List.append_nil] at hall
  have hq : v₂.queued = [] := by
    have hlen := h'.sends.out.length_le
    rw [← hall, List.length_append] at hlen
    exact List.length_eq_zero_iff.mp (by omega)
  rw [hq, List.append_nil] at hall
  obtain ⟨lost, harr⟩ := h.arrived
  obtain ⟨new, harr', hwait⟩ := h'.takes
  rw [List.nil_append] at hwait
  exact ⟨h.out.trans h'.sends.out, hall ▸ h.all, hq,
    ⟨lost, by rw [harr', harr, hwait, List.append_assoc]⟩, h'.pending.trans h.pending,
    h'.opened.trans h.opened⟩

/-- What comes before a reset does not count. -/
theorem Emptied.after (hs : Sends [] v v₁) (ht : Takes ps v v₁) (h : Emptied v₁ v₂) :
    Emptied v v₂ := by
  have hall := hs.all
  rw [List.append_nil] at hall
  obtain ⟨new, harr, -⟩ := ht
  obtain ⟨lost, harr'⟩ := h.arrived
  exact ⟨hs.out.trans h.out, hall ▸ h.all, h.queued,
    ⟨new ++ lost, by rw [harr', harr, List.append_assoc v.arrived]⟩, h.pending, h.opened⟩

theorem Quiet.moves (h : Quiet v) (hm : Moves v v₁) : Quiet v₁ :=
  ⟨hm.pending.trans h.pending, hm.opened.trans h.opened⟩

end View

/-! ## A core with an answer to each packet -/

/-- A core with room for every packet that the driver lets through. -/
structure Echo where
  pending : List Word
  queued : List Packet
  out : List Packet
  opened : List Word
  waiting : List Word
  arrived : List Word

namespace Echo

def room : ℕ := 512

def view (e : Echo) : View where
  room := room
  pending := e.pending
  queued := e.queued
  out := e.out
  opened := e.opened
  waiting := e.waiting.map bytes_of
  arrived := e.arrived.map bytes_of

variable (reply : Packet → List Word)

/-- All that is queued goes out, and the words of the answers come in. -/
def flow (e : Echo) : Echo :=
  { e with out := e.out ++ e.queued, queued := [],
           waiting := e.waiting ++ e.queued.flatMap reply,
           arrived := e.arrived ++ e.queued.flatMap reply }

theorem moves_flow (e : Echo) {n : ℕ} (hn : room ≤ n) :
    e.view.Moves { (e.flow reply).view with room := n } := by
  refine ⟨⟨?_, List.prefix_append ..⟩, ⟨(e.queued.flatMap reply).map bytes_of, ?_, ?_⟩, rfl, rfl, hn⟩
  · simp [view, flow]
  · simp [view, flow]
  · simp [view, flow]

def core : Core Echo where
  ioread32 r e :=
    let e := e.flow reply
    match r with
    | .TDFV => (.ofNat 32 room, e)
    | .RDFO => (if e.waiting.isEmpty then 0 else 1, e)
    | .RLR =>
      match e.waiting with
      | w :: ws => (4, { e with waiting := ws, opened := [w] })
      | [] => (0, e)
    | .RDFD =>
      match e.opened with
      | w :: ws => (w, { e with opened := ws })
      | [] => (0, e)
    | _ => (0, e)
  iowrite32 w r e :=
    let e := e.flow reply
    match r with
    | .TDFD => { e with pending := e.pending ++ [w] }
    | .TLR =>
      { e with pending := [], queued := e.queued ++ [(bytes e.pending).take w.toNat] }
    | .SRR => { e with pending := [], queued := [], opened := [], waiting := [] }
    | .TDFR => { e with pending := [], queued := [] }
    | .RDFR => { e with opened := [], waiting := [] }
    | _ => e

theorem documented : Documented (core reply) view := by
  constructor
  · intro r e
    refine ⟨(e.flow reply).view, e.moves_flow reply (Nat.le_refl _), ?_⟩
    cases r with
    | RLR =>
      intro p ps _ hps
      cases hw : (e.flow reply).waiting with
      | nil =>
        rw [show (e.flow reply).view.waiting = (e.flow reply).waiting.map bytes_of from rfl, hw] at hps
        cases hps
      | cons w ws =>
        rw [show (e.flow reply).view.waiting = (e.flow reply).waiting.map bytes_of from rfl, hw] at hps
        cases hps
        unfold core
        simp only [hw]
        exact ⟨rfl, [w], ⟨by rw [length_bytes_of]; rfl, by simp⟩, rfl⟩
    | RDFD =>
      intro w ws hws
      have hws : (e.flow reply).opened = w :: ws := hws
      unfold core
      simp only [hws]
      exact ⟨trivial, rfl⟩
    | RDFO =>
      refine ⟨?_, rfl⟩
      unfold core
      intro hne hnil
      have hnil : (e.flow reply).waiting = [] := List.map_eq_nil_iff.mp hnil
      simp [hnil] at hne
    | TDFV => exact ⟨(by decide : (BitVec.ofNat 32 room).toNat ≤ room), rfl⟩
    | ISR | IER | TDFR | TDFD | TLR | RDFR | SRR => rfl
  · intro w r e
    cases r with
    | TDFD => exact ⟨_, e.moves_flow reply (Nat.le_succ _), fun _ => rfl⟩
    | TLR => exact ⟨_, e.moves_flow reply (Nat.le_refl _), fun _ => rfl⟩
    | SRR => exact ⟨_, e.moves_flow reply (Nat.le_refl _), fun _ => ⟨room, rfl⟩⟩
    | TDFR => exact ⟨_, e.moves_flow reply (Nat.le_refl _), fun _ => ⟨room, rfl⟩⟩
    | RDFR => exact ⟨_, e.moves_flow reply (Nat.le_refl _), fun _ => rfl⟩
    | ISR | IER | TDFV | RDFO | RDFD | RLR => exact ⟨_, e.moves_flow reply (Nat.le_refl _), rfl⟩

def empty : Echo := ⟨[], [], [], [], [], []⟩

theorem empty_quiet : empty.view.Quiet := ⟨rfl, rfl⟩

end Echo

end axis_fifo
