import Mathlib.Algebra.Ring.Nat
import Mathlib.Data.List.Basic
import Mathlib.Data.List.TakeDrop

/-!
# Length-prefixed framing

A stream is cut into frames, each a header of fixed length that announces the length of the
payload after it. `split` is the specification of a reader: the payloads of the maximal prefix of
complete frames, and what is left.

Main results: `split_append`, a stream received in two pieces is split as if it had been received
at once, and `split_encode`, an encoded sequence of payloads is split into these payloads.
-/

namespace BambooNet

/-- Headers of `hdr` elements; `payloadLen` reads the announced payload length off a header. -/
structure Framing (α : Type*) where
  hdr : ℕ
  hdr_pos : 0 < hdr
  payloadLen : List α → ℕ

namespace Framing

variable {α : Type*} (F : Framing α)

/-- The payload length announced at the front of `s`. -/
def lenAt (s : List α) : ℕ := F.payloadLen (s.take F.hdr)

/-- `s` starts with a complete frame. -/
def Complete (s : List α) : Prop := F.hdr + F.lenAt s ≤ s.length

instance (s : List α) : Decidable (F.Complete s) := inferInstanceAs (Decidable (_ ≤ _))

/-- The payload of the frame at the front of `s`. -/
def payload (s : List α) : List α := (s.drop F.hdr).take (F.lenAt s)

/-- What follows the frame at the front of `s`. -/
def after (s : List α) : List α := s.drop (F.hdr + F.lenAt s)

theorem length_after (s : List α) : (F.after s).length = s.length - (F.hdr + F.lenAt s) :=
  List.length_drop

theorem length_after_lt {s : List α} (h : F.Complete s) : (F.after s).length < s.length := by
  have hp := F.hdr_pos
  unfold Complete at h
  rw [F.length_after]
  omega

theorem drop_after (s : List α) (k : ℕ) :
    (F.after s).drop k = s.drop (F.hdr + F.lenAt s + k) := by
  rw [after, List.drop_drop]

theorem length_payload {s : List α} (h : F.Complete s) : (F.payload s).length = F.lenAt s := by
  unfold Complete at h
  rw [payload, List.length_take, List.length_drop]
  omega

/-- The payloads of the maximal prefix of complete frames, and the rest of the stream. -/
def split (s : List α) : List (List α) × List α :=
  if F.Complete s then
    let r := split (F.after s)
    (F.payload s :: r.1, r.2)
  else ([], s)
termination_by s.length
decreasing_by exact F.length_after_lt ‹_›

theorem split_of_complete {s : List α} (h : F.Complete s) :
    F.split s = (F.payload s :: (F.split (F.after s)).1, (F.split (F.after s)).2) := by
  rw [split, if_pos h]

theorem split_of_not_complete {s : List α} (h : ¬ F.Complete s) : F.split s = ([], s) := by
  rw [split, if_neg h]

@[simp] theorem split_nil : F.split [] = ([], []) :=
  F.split_of_not_complete (by have := F.hdr_pos; simp [Complete]; omega)

/-- The payload lengths a reader of `s` meets: those of the complete frames, and that of the
frame in progress once its header is there. -/
def announced (s : List α) : List ℕ :=
  if F.hdr ≤ s.length then
    F.lenAt s :: if F.Complete s then announced (F.after s) else []
  else []
termination_by s.length
decreasing_by exact F.length_after_lt ‹_›

theorem complete_header {s : List α} (h : F.Complete s) : F.hdr ≤ s.length :=
  Nat.le_trans (Nat.le_add_right _ _) h

theorem announced_of_le {s : List α} (h : F.hdr ≤ s.length) :
    F.announced s = F.lenAt s :: if F.Complete s then F.announced (F.after s) else [] := by
  rw [announced, if_pos h]

theorem announced_of_lt {s : List α} (h : s.length < F.hdr) : F.announced s = [] := by
  rw [announced, if_neg (Nat.not_le.2 h)]

/-- Elements taken by frames with the given payloads. -/
def wireLen (ps : List (List α)) : ℕ := (ps.map fun p => F.hdr + p.length).sum

@[simp] theorem wireLen_nil : F.wireLen [] = 0 := rfl

@[simp] theorem wireLen_cons (p : List α) (ps : List (List α)) :
    F.wireLen (p :: ps) = F.hdr + p.length + F.wireLen ps := by
  simp [wireLen]

/-- The frames and the rest make up the whole stream. -/
theorem split_rest (s : List α) : (F.split s).2 = s.drop (F.wireLen (F.split s).1) := by
  fun_induction F.split s with
  | case1 s h r ih =>
    show r.2 = s.drop (F.wireLen (F.payload s :: r.1))
    rw [ih, wireLen_cons, F.length_payload h, F.drop_after]
  | case2 s h => simp

theorem not_complete_rest (s : List α) : ¬ F.Complete (F.split s).2 := by
  fun_induction F.split s with
  | case1 s h r ih => exact ih
  | case2 s h => exact h

/-! ## Receiving in pieces -/

theorem lenAt_append {s : List α} (h : F.hdr ≤ s.length) (t : List α) :
    F.lenAt (s ++ t) = F.lenAt s := by
  rw [lenAt, List.take_append_of_le_length h, lenAt]

theorem Complete.append {F : Framing α} {s : List α} (h : F.Complete s) (t : List α) :
    F.Complete (s ++ t) := by
  unfold Complete at *
  rw [F.lenAt_append (by omega), List.length_append]
  omega

theorem payload_append {s : List α} (h : F.Complete s) (t : List α) :
    F.payload (s ++ t) = F.payload s := by
  have hh := F.complete_header h
  unfold Complete at h
  rw [payload, F.lenAt_append hh, List.drop_append_of_le_length hh,
    List.take_append_of_le_length (by rw [List.length_drop]; omega), payload]

theorem after_append {s : List α} (h : F.Complete s) (t : List α) :
    F.after (s ++ t) = F.after s ++ t := by
  have hh := F.complete_header h
  rw [after, F.lenAt_append hh, List.drop_append_of_le_length h, after]

/-- **A stream received in two pieces**: what the first piece leaves is read again with the
second. -/
theorem split_append (s t : List α) :
    F.split (s ++ t) =
      ((F.split s).1 ++ (F.split ((F.split s).2 ++ t)).1, (F.split ((F.split s).2 ++ t)).2) := by
  fun_induction F.split s with
  | case1 s h r ih =>
    rw [F.split_of_complete (h.append t), F.payload_append h, F.after_append h, ih]
    rfl
  | case2 s h => rfl

/-- Receive a stream piece by piece, reading the complete frames after each piece. -/
def receive (s : List α) : List (List α) → List (List α) × List α
  | [] => ([], s)
  | c :: cs =>
    let r := F.split (s ++ c)
    let t := receive r.2 cs
    (r.1 ++ t.1, t.2)

/-- **A stream received piece by piece** gives the frames of the whole stream. -/
theorem receive_eq {s : List α} (h : ¬ F.Complete s) (cs : List (List α)) :
    F.receive s cs = F.split (s ++ cs.flatten) := by
  induction cs generalizing s with
  | nil => rw [receive, List.flatten_nil, List.append_nil, F.split_of_not_complete h]
  | cons c cs ih =>
    rw [receive, ih (F.not_complete_rest _), List.flatten_cons, ← List.append_assoc,
      F.split_append (s ++ c)]

/-- The frames that each piece of a stream completes. -/
def batches (s : List α) : List (List α) → List (List (List α))
  | [] => []
  | c :: cs => (F.split (s ++ c)).1 :: batches (F.split (s ++ c)).2 cs

theorem receive_fst (s : List α) (cs : List (List α)) :
    (F.receive s cs).1 = (F.batches s cs).flatten := by
  induction cs generalizing s with
  | nil => rfl
  | cons c cs ih => rw [receive, batches, List.flatten_cons, ih]

/-- The headers met in a stream are met in a longer one. -/
theorem mem_announced_append {s : List α} {n : ℕ} (h : n ∈ F.announced s) (t : List α) :
    n ∈ F.announced (s ++ t) := by
  fun_induction F.announced s with
  | case1 s hh ih =>
    have hh' : F.hdr ≤ (s ++ t).length := by
      rw [List.length_append]
      omega
    rw [F.announced_of_le hh', F.lenAt_append hh]
    rcases List.mem_cons.1 h with rfl | h
    · exact List.mem_cons_self
    · split at h
      · next hc =>
        rw [if_pos (hc.append t), F.after_append hc]
        exact List.mem_cons_of_mem _ (ih hc h)
      · cases h
  | case2 s hh => cases h

/-- So are those met behind its complete frames. -/
theorem mem_announced_rest {s t : List α} {n : ℕ} (h : n ∈ F.announced ((F.split s).2 ++ t)) :
    n ∈ F.announced (s ++ t) := by
  fun_induction F.split s with
  | case1 s hc r ih =>
    rw [F.announced_of_le (F.complete_header (hc.append t)), if_pos (hc.append t),
      F.after_append hc]
    exact List.mem_cons_of_mem _ (ih h)
  | case2 s hc => exact h

/-! ## Encoded streams -/

/-- `s` is a well-formed frame carrying `p`. -/
def Encodes (s p : List α) : Prop :=
  F.Complete s ∧ F.payload s = p ∧ F.after s = []

theorem split_encode_append {f p : List α} (h : F.Encodes f p) (t : List α) :
    F.split (f ++ t) = (p :: (F.split t).1, (F.split t).2) := by
  obtain ⟨hc, rfl, ha⟩ := h
  rw [F.split_of_complete (hc.append t), F.payload_append hc, F.after_append hc, ha,
    List.nil_append]

/-- **A sequence of encoded frames is split into its payloads**, with nothing left. -/
theorem split_encode {fs ps : List (List α)} (h : List.Forall₂ F.Encodes fs ps) :
    F.split fs.flatten = (ps, []) := by
  induction h with
  | nil => simp
  | cons hfp _ ih => rw [List.flatten_cons, F.split_encode_append hfp, ih]

end Framing

end BambooNet
