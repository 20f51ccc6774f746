import BambooNet.Tutk.FecRuns
import BambooNet.Tutk.FrameStream

/-!
# The framed transport

`handleFramed` takes a stream packet apart, gives it to the FEC receiver and hands the slices that
come out to the frame queue; `receive` flushes the queue after every packet.

`Transmission` is a sender's side of a session: frames cut into slices, the slices packed into
groups, and the packets that are lost.
-/

namespace BambooNet.Tutk

open Serial (dist wrap)
open Concat (At start len)

/-! ## The receiver -/

/-- A 0x0c packet: AV header, with flag bit 3 an embedded printer probe of 8 bytes, then an 8-byte
group header (group number, index, `k` data packets, `m` parity packets) and the body. `none` for a
packet that is too short, for control traffic (`k = 0`) and for a group that is too large. -/
def parseFramed (pkt : Bytes) : Option Packet :=
  let probe := pkt.getD 1 0 &&& 0x08 ≠ 0
  let off := if probe then 16 else 8
  if pkt.length < off + 8 then none
  else
    let k := (pkt.getD (off + 3) 0).toNat
    let m := getLe32 pkt (off + 4)
    if k = 0 ∨ m > 255 - k then none
    else some
      { group := BitVec.ofNat 16 (getLe16 pkt off)
        idx := (pkt.getD (off + 2) 0).toNat
        k := k
        m := m
        body := pkt.drop (off + 8) }

/-- A packet as it is sent, without a probe. -/
def framed (p : Packet) : Bytes :=
  [0x0c, 0, 0, 0, 0, 0, 0, 0] ++
    [UInt8.ofNat p.group.toNat, UInt8.ofNat (p.group.toNat / 256), UInt8.ofNat p.idx,
      UInt8.ofNat p.k, UInt8.ofNat p.m, 0, 0, 0] ++ p.body

/-- **A packet is parsed as it was framed.** -/
theorem parseFramed_framed {p : Packet} (hidx : p.idx < 256) (hk : 0 < p.k)
    (hsize : p.k + p.m ≤ 255) : parseFramed (framed p) = some p := by
  obtain ⟨group, idx, k, m, body⟩ := p
  simp only at hidx hk hsize
  have hgroup := group.isLt
  have hg : getLe16 (framed ⟨group, idx, k, m, body⟩) 8 = group.toNat := by
    simp [framed, getLe16, leNat]
    omega
  have hm : getLe32 (framed ⟨group, idx, k, m, body⟩) 12 = m := by
    simp [framed, getLe32, leNat]
    omega
  have hlen : ¬ (framed ⟨group, idx, k, m, body⟩).length < 16 := by simp [framed]
  have hprobe : ¬ ((framed ⟨group, idx, k, m, body⟩).getD 1 0 &&& 0x08 ≠ 0) := by simp [framed]
  unfold parseFramed
  simp only [hprobe, if_false, Nat.reduceAdd, hlen, hg, hm]
  simp [framed]
  omega

/-- The state of the receive loop. -/
structure Receiver where
  fecs : FecReceiver := {}
  framesQ : FrameQueue := {}

namespace Receiver

/-- Give a stream packet to the FEC receiver and the slices that come out to the queue. -/
def handlePacket (r : Receiver) (p : Packet) : Receiver :=
  let (fecs, slices) := r.fecs.add p
  { fecs := fecs, framesQ := slices.foldl (fun q d => q.addSlice d.2) r.framesQ }

def handleFramed (r : Receiver) (pkt : Bytes) : Receiver :=
  match parseFramed pkt with
  | none => r
  | some p => r.handlePacket p

/-- A framed packet and the flush after it. -/
def receive (r : Receiver) (pkt : Bytes) (met : ℕ → Round) : Receiver × List Event :=
  let r := r.handleFramed pkt
  let (q, es) := r.framesQ.flush r.fecs.hasHoles met
  ({ r with framesQ := q }, es)

/-- Packets one after the other, each with what the rounds of its flush meet. -/
def receiveAll (r : Receiver) : List (Bytes × (ℕ → Round)) → Receiver × List Event
  | [] => (r, [])
  | p :: ps =>
    let (r', now) := r.receive p.1 p.2
    let (r'', later) := receiveAll r' ps
    (r'', now ++ later)

theorem receiveAll_cons (r : Receiver) (p : Bytes × (ℕ → Round))
    (ps : List (Bytes × (ℕ → Round))) :
    r.receiveAll (p :: ps) = (((r.receive p.1 p.2).1.receiveAll ps).1,
      (r.receive p.1 p.2).2 ++ ((r.receive p.1 p.2).1.receiveAll ps).2) := rfl

@[simp] theorem receiveAll_concat (r : Receiver) (ps : List (Bytes × (ℕ → Round)))
    (p : Bytes × (ℕ → Round)) :
    r.receiveAll (ps ++ [p]) = (((r.receiveAll ps).1.receive p.1 p.2).1,
      (r.receiveAll ps).2 ++ ((r.receiveAll ps).1.receive p.1 p.2).2) := by
  induction ps generalizing r with
  | nil => simp [receiveAll]
  | cons q ps ih => simp [receiveAll_cons, ih]

end Receiver

/-! ## Sessions -/

/-- Frames with consecutive numbers, their slices packed in order into groups with consecutive
numbers, of which at most as many packets are lost as there are parity packets. The stream may go
on after the last group. -/
structure Transmission where
  frames : List SentFrame
  groups : List SentGroup
  firstGroup : ℤ
  lost : ℕ → ℕ → Bool
  numbered : FrameQueue.Numbered frames
  key : ∀ sf, frames[0]? = some sf → ∀ behind, sf.frame.isKey behind = true
  packed : (groups.map (·.bodies)).flatten <+: (FrameQueue.cells frames).flatten
  losses : ∀ j sg, groups[j]? = some sg →
    ((List.range (sg.k + sg.m)).filter (lost j)).length ≤ sg.m

namespace Transmission

variable (t : Transmission)

/-- The data bodies, group by group. -/
def bodies : List (List Bytes) := t.groups.map (·.bodies)

/-- The slices, frame by frame. -/
def cells : List (List Bytes) := FrameQueue.cells t.frames

/-- The indices of a group's packets that arrive. -/
def arriving (j : ℕ) (sg : SentGroup) : List ℕ :=
  (List.range (sg.k + sg.m)).filter fun i => !t.lost j i

/-- The packets that arrive, group by group, as group and index. -/
def arrivalsOf : List (List (ℕ × ℕ)) :=
  t.groups.mapIdx fun j sg => (t.arriving j sg).map (j, ·)

/-- The packets that arrive, in sending order. -/
def arrivals : List (ℕ × ℕ) := t.arrivalsOf.flatten

/-- Packet `i` of group `j`. -/
def packet? (p : ℕ × ℕ) : Option Packet :=
  t.groups[p.1]?.map fun sg => sg.packet (wrap 16 (t.firstGroup + p.1)) p.2

/-- At least `k` packets of group `j` are among those that have arrived. -/
def Closed (ps : List (ℕ × ℕ)) (j : ℕ) : Prop :=
  ∃ sg, t.groups[j]? = some sg ∧ sg.k ≤ (ps.filter (·.1 = j)).length

/-- A frame after the first one arrives whole in the first group, and nothing of the frames before
it does. -/
def Headless : Prop :=
  ∃ f sg, 0 < f ∧ f < t.frames.length ∧ t.groups[0]? = some sg ∧ start t.cells (f + 1) ≤ sg.k ∧
    (∀ p < start t.cells f, t.lost 0 p = true) ∧
    ∀ p, start t.cells f ≤ p → p < start t.cells (f + 1) → t.lost 0 p = false

/-- The turn of the 32-bit frame counter in which a frame is sent. -/
def turn (f : ℕ) : Option ℤ := t.frames[f]?.map fun sf => sf.no / 2 ^ 32

/-- When a data packet is lost, the later ones of its group are of the same turn of the frame
counter. -/
def WrapSafe : Prop :=
  ∀ j sg, t.groups[j]? = some sg → ∀ i i', i < i' → i' < sg.k → t.lost j i = true →
    ∀ f f' x x', At t.cells (start t.bodies j + i) f x → At t.cells (start t.bodies j + i') f' x' →
      t.turn f = t.turn f'

end Transmission

end BambooNet.Tutk
