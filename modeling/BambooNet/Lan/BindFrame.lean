import BambooNet.Lib.Bytes
import BambooNet.Lib.Marked

/-!
# Frames of the bind channel

A frame is `a5 a5`, the length of the whole frame, the payload, and `a7 a7`. `drain_frames` takes
the complete frames off a receive buffer and drops what cannot belong to one. It keeps the start of
a frame that is still incomplete, with one exception: a buffer without `a5 a5` in it is cleared, and
with it an `a5` at its end.

**Theorem (`drained_iff`).** However the stream is cut into appends, the payloads come out as they
were sent exactly when no append ends right after the first byte of a frame.
-/

namespace BambooNet.Lan.BindFrame

open Marked

/-! ## The codec -/

def kMagicHead0 : UInt8 := 0xa5

def kMagicHead1 : UInt8 := 0xa5

def kMagicTail0 : UInt8 := 0xa7

def kMagicTail1 : UInt8 := 0xa7

def kMinFrame : ℕ := 6

/-- Empty when the payload is too long for the length field. -/
def encodeFrame (json : Bytes) : Bytes :=
  let total := 2 + 2 + json.length + 2
  if 0xffff < total then []
  else
    [kMagicHead0, kMagicHead1, UInt8.ofNat (total &&& 0xff), UInt8.ofNat (total >>> 8 &&& 0xff)] ++
      json ++ [kMagicTail0, kMagicTail1]

inductive Fault
  /-- A read past the end of the buffer. -/
  | outside
  /-- The loop has not ended. -/
  | loops
  deriving DecidableEq

/-- The buffer from the first `a5 a5` on. -/
def findMagic : Bytes → Option Bytes
  | a :: b :: s => if a = kMagicHead0 ∧ b = kMagicHead1 then some (a :: b :: s)
      else findMagic (b :: s)
  | _ => none

/-- The loop of `drain_frames`: the payloads and what stays in the buffer. -/
def drainLoop : ℕ → Bytes → Except Fault (List Bytes × Bytes)
  | 0, _ => .error .loops
  | n + 1, buf =>
    match findMagic buf with
    | none => .ok ([], [])
    | some buf =>
      if buf.length < 4 then .ok ([], buf)
      else
        match readBytes buf 2 2 with
        | none => .error .outside
        | some len =>
          let total := leNat len
          if total < kMinFrame then drainLoop n (buf.drop 2)
          else if buf.length < total then .ok ([], buf)
          else
            match readBytes buf (total - 2) 2, readBytes buf 4 (total - 6) with
            | some tail, some payload =>
              if tail ≠ [kMagicTail0, kMagicTail1] then drainLoop n (buf.drop 2)
              else
                match drainLoop n (buf.drop total) with
                | .error e => .error e
                | .ok (out, rest) => .ok (payload :: out, rest)
            | _, _ => .error .outside

/-- Every round but the last takes at least two bytes off. -/
def drainFrames (buf : Bytes) : Except Fault (List Bytes × Bytes) :=
  drainLoop (buf.length + 1) buf

/-- The payloads that come out when the stream is appended piece by piece. -/
def drainAll : Bytes → List Bytes → Except Fault (List Bytes)
  | _, [] => .ok []
  | buf, c :: cs =>
    match drainFrames (buf ++ c) with
    | .error e => .error e
    | .ok (out, rest) =>
      match drainAll rest cs with
      | .error e => .error e
      | .ok out' => .ok (out ++ out')

/-! ## One round -/

/-- The length that a frame announces. -/
def announced (s : Bytes) : ℕ := leNat ((s.drop 2).take 2)

/-- What is found starts with `a5 a5` and reaches to the end of the buffer. -/
theorem findMagic_eq_some {b s : Bytes} (h : findMagic b = some s) :
    (∃ t, s = kMagicHead0 :: kMagicHead1 :: t) ∧ s <:+ b := by
  induction b using findMagic.induct with
  | case1 x y t hxy =>
    rw [findMagic, if_pos hxy] at h
    obtain rfl := Option.some.inj h
    exact ⟨⟨t, by rw [hxy.1, hxy.2]⟩, List.suffix_rfl⟩
  | case2 x y t hxy ih =>
    rw [findMagic, if_neg hxy] at h
    exact ⟨(ih h).1, (ih h).2.trans (List.suffix_cons _ _)⟩
  | case3 b hb =>
    rcases b with _ | ⟨x, _ | ⟨y, t⟩⟩
    · contradiction
    · contradiction
    · exact absurd rfl (hb x y t)

/-- What one round does, with the rest of the work left to `next`. -/
def round (next : Bytes → Except Fault (List Bytes × Bytes)) (b : Bytes) :
    Except Fault (List Bytes × Bytes) :=
  match findMagic b with
  | none => .ok ([], [])
  | some s =>
    if s.length < 4 then .ok ([], s)
    else if announced s < kMinFrame then next (s.drop 2)
    else if s.length < announced s then .ok ([], s)
    else if (s.drop (announced s - 2)).take 2 ≠ [kMagicTail0, kMagicTail1] then next (s.drop 2)
    else
      match next (s.drop (announced s)) with
      | .error e => .error e
      | .ok (out, rest) => .ok ((s.drop 4).take (announced s - 6) :: out, rest)

/-- **No round reads past the end of the buffer.** -/
theorem drainLoop_succ (n : ℕ) (b : Bytes) : drainLoop (n + 1) b = round (drainLoop n) b := by
  rw [drainLoop, round]
  cases findMagic b with
  | none => rfl
  | some s =>
    dsimp only
    by_cases h4 : s.length < 4
    · rw [if_pos h4, if_pos h4]
    rw [if_neg h4, if_neg h4, readBytes_of_le (by omega)]
    show (if announced s < kMinFrame then _ else _) = _
    by_cases hmin : announced s < kMinFrame
    · rw [if_pos hmin, if_pos hmin]
    rw [if_neg hmin, if_neg hmin]
    show (if s.length < announced s then _ else _) = _
    by_cases hlen : s.length < announced s
    · rw [if_pos hlen, if_pos hlen]
    rw [if_neg hlen, if_neg hlen]
    have hmin' : 6 ≤ announced s := Nat.le_of_not_lt hmin
    have htail : readBytes s (announced s - 2) 2 = some ((s.drop (announced s - 2)).take 2) :=
      readBytes_of_le (by omega)
    have hpayload : readBytes s 4 (announced s - 6) = some ((s.drop 4).take (announced s - 6)) :=
      readBytes_of_le (by omega)
    rw [announced] at htail hpayload ⊢
    simp only [htail, hpayload]

/-- A round goes on with less than it had. -/
theorem round_congr {f g : Bytes → Except Fault (List Bytes × Bytes)} {b : Bytes}
    (h : ∀ t, t.length < b.length → f t = g t) : round f b = round g b := by
  unfold round
  cases hs : findMagic b with
  | none => rfl
  | some s =>
    have hle := (findMagic_eq_some hs).2.length_le
    dsimp only
    by_cases h4 : s.length < 4
    · rw [if_pos h4, if_pos h4]
    have hskip : f (s.drop 2) = g (s.drop 2) := h _ (by rw [List.length_drop]; omega)
    rw [if_neg h4, if_neg h4, hskip]
    by_cases hmin : announced s < kMinFrame
    · rw [if_pos hmin, if_pos hmin]
    have hframe : f (s.drop (announced s)) = g (s.drop (announced s)) := by
      have hmin' : 6 ≤ announced s := Nat.le_of_not_lt hmin
      exact h _ (by rw [List.length_drop]; omega)
    rw [if_neg hmin, if_neg hmin, hframe]

theorem drainLoop_congr {m n : ℕ} {b : Bytes} (hm : b.length < m) (hn : b.length < n) :
    drainLoop m b = drainLoop n b := by
  induction m generalizing n b with
  | zero => omega
  | succ m ih =>
    obtain ⟨n, rfl⟩ : ∃ k, n = k + 1 := ⟨n - 1, by omega⟩
    rw [drainLoop_succ, drainLoop_succ]
    exact round_congr fun t ht => ih (by omega) (by omega)

theorem drainFrames_eq (b : Bytes) : drainFrames b = round drainFrames b := by
  rw [drainFrames, drainLoop_succ]
  exact round_congr fun t ht => drainLoop_congr (by omega) (Nat.lt_succ_self _)

/-! ## A frame in the buffer -/

theorem findMagic_append {j : Bytes} (hj : kMagicHead0 ∉ j) (s : Bytes) :
    findMagic (j ++ s) = findMagic s := by
  induction j with
  | nil => rfl
  | cons c j ih =>
    rw [List.mem_cons, not_or] at hj
    rw [List.cons_append]
    cases hjs : j ++ s with
    | nil =>
      rw [(List.append_eq_nil_iff.1 hjs).2]
      rfl
    | cons d t =>
      rw [findMagic, if_neg (fun h => hj.1 h.1.symm), ← hjs, ih hj.2]

/-- Bytes that are not `a5` are dropped. -/
theorem drainFrames_junk {j : Bytes} (hj : kMagicHead0 ∉ j) (s : Bytes) :
    drainFrames (j ++ s) = drainFrames s := by
  rw [drainFrames_eq, drainFrames_eq s, round, round, findMagic_append hj]

/-- The two bytes of a length give it back, and it gives them. -/
theorem leNat_length (n : ℕ) (hn : n < 2 ^ 16) :
    leNat [UInt8.ofNat (n &&& 0xff), UInt8.ofNat (n >>> 8 &&& 0xff)] = n := by
  have hlow : n &&& 0xff = n % 2 ^ 8 := Nat.and_two_pow_sub_one_eq_mod n 8
  have hhigh : n >>> 8 &&& 0xff = n / 2 ^ 8 % 2 ^ 8 := by
    rw [Nat.shiftRight_eq_div_pow]
    exact Nat.and_two_pow_sub_one_eq_mod _ 8
  simp only [leNat, hlow, hhigh, UInt8.toNat_ofNat']
  omega

theorem length_leNat (lo hi : UInt8) :
    [UInt8.ofNat (leNat [lo, hi] &&& 0xff), UInt8.ofNat (leNat [lo, hi] >>> 8 &&& 0xff)] =
      [lo, hi] := by
  have hlo := lo.toNat_lt
  have hhi := hi.toNat_lt
  have hn : leNat [lo, hi] = lo.toNat + 256 * hi.toNat := by
    simp [leNat]
  have hlow : leNat [lo, hi] &&& 0xff = lo.toNat := by
    rw [show (0xff : ℕ) = 2 ^ 8 - 1 from rfl, Nat.and_two_pow_sub_one_eq_mod]
    omega
  have hhigh : leNat [lo, hi] >>> 8 &&& 0xff = hi.toNat := by
    rw [show (0xff : ℕ) = 2 ^ 8 - 1 from rfl, Nat.and_two_pow_sub_one_eq_mod,
      Nat.shiftRight_eq_div_pow]
    omega
  rw [hlow, hhigh, UInt8.ofNat_toNat, UInt8.ofNat_toNat]

/-- A frame, with its two length bytes. -/
theorem encodeFrame_eq {p : Bytes} (hp : p.length ≤ 65529) :
    ∃ lo hi, leNat [lo, hi] = p.length + 6 ∧
      encodeFrame p =
        kMagicHead0 :: kMagicHead1 :: lo :: hi :: (p ++ [kMagicTail0, kMagicTail1]) := by
  refine ⟨_, _, leNat_length (p.length + 6) (by omega), ?_⟩
  have htotal : 2 + 2 + p.length + 2 = p.length + 6 := by omega
  rw [encodeFrame]
  simp only [htotal]
  rw [if_neg (by omega)]
  rfl

theorem length_encodeFrame {p : Bytes} (hp : p.length ≤ 65529) :
    (encodeFrame p).length = p.length + 6 := by
  obtain ⟨lo, hi, -, heq⟩ := encodeFrame_eq hp
  simp [heq]

theorem findMagic_head (t : Bytes) :
    findMagic (kMagicHead0 :: kMagicHead1 :: t) = some (kMagicHead0 :: kMagicHead1 :: t) :=
  if_pos ⟨rfl, rfl⟩

/-- **A complete frame is taken off.** -/
theorem drainFrames_frame {p : Bytes} (hp : p.length ≤ 65529) {t rest : Bytes} {out : List Bytes}
    (ht : drainFrames t = .ok (out, rest)) :
    drainFrames (encodeFrame p ++ t) = .ok (p :: out, rest) := by
  obtain ⟨lo, hi, hlen, heq⟩ := encodeFrame_eq hp
  have hann : announced (encodeFrame p ++ t) = p.length + 6 := by
    rw [heq]
    exact hlen
  have hframe := length_encodeFrame hp
  have hdrop : (encodeFrame p ++ t).drop (p.length + 6) = t := List.drop_left' hframe
  have htail : ((encodeFrame p ++ t).drop (p.length + 6 - 2)).take 2 =
      [kMagicTail0, kMagicTail1] := by
    rw [heq]
    simp
  have hpayload : ((encodeFrame p ++ t).drop 4).take (p.length + 6 - 6) = p := by
    rw [heq]
    simp
  have hfind : findMagic (encodeFrame p ++ t) = some (encodeFrame p ++ t) := by
    rw [heq]
    exact findMagic_head _
  rw [drainFrames_eq, round, hfind]
  dsimp only
  rw [if_neg (by rw [List.length_append]; omega), hann,
    if_neg (by rw [kMinFrame]; omega), if_neg (by rw [List.length_append]; omega), htail,
    if_neg (fun h => h rfl), hdrop, ht, hpayload]

/-- The start of a frame stays, unless it is the first byte alone. -/
theorem drainFrames_partial {p : Bytes} (hp : p.length ≤ 65529) {o : ℕ} (ho : o ≠ 1)
    (hlt : o < p.length + 6) :
    drainFrames ((encodeFrame p).take o) = .ok ([], (encodeFrame p).take o) := by
  obtain ⟨lo, hi, hlen, heq⟩ := encodeFrame_eq hp
  rcases Nat.eq_zero_or_pos o with rfl | hpos
  · rfl
  obtain ⟨k, rfl⟩ : ∃ k, o = k + 2 := ⟨o - 2, by omega⟩
  have hlength : ((encodeFrame p).take (k + 2)).length = k + 2 := by
    rw [List.length_take, length_encodeFrame hp]
    omega
  have hfind : findMagic ((encodeFrame p).take (k + 2)) = some ((encodeFrame p).take (k + 2)) := by
    rw [heq]
    exact findMagic_head _
  rw [drainFrames_eq, round, hfind]
  dsimp only
  by_cases h4 : k + 2 < 4
  · rw [if_pos (by omega)]
  have hann : announced ((encodeFrame p).take (k + 2)) = p.length + 6 := by
    obtain ⟨m, rfl⟩ : ∃ m, k = m + 2 := ⟨k - 2, by omega⟩
    rw [heq]
    exact hlen
  rw [if_neg (by omega), hann, if_neg (by rw [kMinFrame]; omega), if_pos (by omega)]

/-- The first byte alone is dropped. -/
theorem drainFrames_first {p : Bytes} (hp : p.length ≤ 65529) :
    drainFrames ((encodeFrame p).take 1) = .ok ([], []) := by
  obtain ⟨lo, hi, -, heq⟩ := encodeFrame_eq hp
  rw [heq]
  rfl

/-- What a round takes for a frame is the frame of its payload. -/
theorem take_announced {s t : Bytes} (hs : s = kMagicHead0 :: kMagicHead1 :: t) (h4 : 4 ≤ s.length)
    (hmin : kMinFrame ≤ announced s) (hlen : announced s ≤ s.length)
    (htail : (s.drop (announced s - 2)).take 2 = [kMagicTail0, kMagicTail1]) :
    s.take (announced s) = encodeFrame ((s.drop 4).take (announced s - 6)) := by
  subst hs
  obtain ⟨lo, hi, u, rfl⟩ : ∃ lo hi u, t = lo :: hi :: u := by
    rcases t with _ | ⟨lo, _ | ⟨hi, u⟩⟩
    · simp at h4
    · simp at h4
    · exact ⟨lo, hi, u, rfl⟩
  have hann : announced (kMagicHead0 :: kMagicHead1 :: lo :: hi :: u) = leNat [lo, hi] := rfl
  have hbytes := length_leNat lo hi
  have hlt : leNat [lo, hi] < 256 ^ 2 := leNat_lt [lo, hi]
  rw [hann] at hmin hlen htail ⊢
  generalize leNat [lo, hi] = n at *
  obtain ⟨m, rfl⟩ : ∃ m, n = m + 6 := ⟨n - 6, by rw [kMinFrame] at hmin; omega⟩
  simp only [List.length_cons] at hlen
  have hpayload : (u.take m).length = m := by
    rw [List.length_take]
    omega
  have htotal : 2 + 2 + (u.take m).length + 2 = m + 6 := by omega
  have htail' : (u.drop m).take 2 = [kMagicTail0, kMagicTail1] := htail
  show kMagicHead0 :: kMagicHead1 :: lo :: hi :: u.take (m + 2) = encodeFrame (u.take m)
  rw [encodeFrame]
  simp only [htotal]
  rw [if_neg (by omega), List.take_add, htail']
  simp only [List.cons.injEq, and_true] at hbytes
  rw [hbytes.1, hbytes.2]
  rfl

/-- **The loop ends and reads nothing outside of the buffer**; what it finds is in the buffer, and
what it keeps comes after it. -/
theorem drainFrames_ok (b : Bytes) : ∃ out rest, drainFrames b = .ok (out, rest) ∧
    Found (out.map encodeFrame) b rest := by
  induction hn : b.length using Nat.strongRecOn generalizing b with
  | ind n ih =>
  rw [drainFrames_eq, round]
  cases hs : findMagic b with
  | none => exact ⟨[], [], rfl, List.nil_suffix⟩
  | some s =>
    obtain ⟨⟨t, hst⟩, hsuffix⟩ := findMagic_eq_some hs
    have hle := hsuffix.length_le
    have hskip : ∃ out rest, drainFrames (s.drop 2) = .ok (out, rest) ∧
        Found (out.map encodeFrame) b rest := by
      obtain ⟨out, rest, hok, hfound⟩ := ih (s.drop 2).length (by
        rw [List.length_drop, hst, List.length_cons] at *
        omega) _ rfl
      exact ⟨out, rest, hok, hfound.of_suffix ((List.drop_suffix 2 s).trans hsuffix)⟩
    dsimp only
    by_cases h4 : s.length < 4
    · rw [if_pos h4]
      exact ⟨[], s, rfl, hsuffix⟩
    rw [if_neg h4]
    by_cases hmin : announced s < kMinFrame
    · rw [if_pos hmin]
      exact hskip
    rw [if_neg hmin]
    by_cases hlen : s.length < announced s
    · rw [if_pos hlen]
      exact ⟨[], s, rfl, hsuffix⟩
    rw [if_neg hlen]
    by_cases htail : (s.drop (announced s - 2)).take 2 = [kMagicTail0, kMagicTail1]
    · have hmin' : 6 ≤ announced s := Nat.le_of_not_lt hmin
      obtain ⟨out, rest, hok, hfound⟩ := ih (s.drop (announced s)).length (by
        rw [List.length_drop]
        omega) _ rfl
      rw [if_neg (fun h => h htail), hok]
      refine ⟨_, rest, rfl, Found.of_suffix ⟨[], s.drop (announced s), ?_, hfound⟩ hsuffix⟩
      rw [← take_announced hst (Nat.le_of_not_lt h4) hmin' (Nat.le_of_not_lt hlen) htail,
        List.nil_append, List.take_append_drop]
    · rw [if_pos htail]
      exact hskip

/-- So does the whole run. -/
theorem drainAll_ok (buf : Bytes) (chunks : List Bytes) : ∃ out, drainAll buf chunks = .ok out ∧
    Found (out.map encodeFrame) (buf ++ chunks.flatten) [] := by
  induction chunks generalizing buf with
  | nil => exact ⟨[], rfl, List.nil_suffix⟩
  | cons c cs ih =>
    obtain ⟨out, rest, hok, hfound⟩ := drainFrames_ok (buf ++ c)
    obtain ⟨out', hok', hfound'⟩ := ih rest
    refine ⟨out ++ out', by simp only [drainAll, hok, hok'], ?_⟩
    rw [List.map_append, List.flatten_cons, ← List.append_assoc]
    exact (hfound.append_right _).trans hfound'

/-! ## A stream in pieces -/

/-- Frames, each with what comes after it, and what comes before them. -/
def stream (j : Bytes) (fs : List (Bytes × Bytes)) : Bytes :=
  j ++ spread (fs.map fun e => (encodeFrame e.1, e.2))

/-- Payloads that can be sent, with junk between the frames. -/
def Sent (fs : List (Bytes × Bytes)) : Prop :=
  ∀ e ∈ fs, e.1.length ≤ 65529 ∧ kMagicHead0 ∉ e.2

/-- After `n` bytes of the stream, the first byte of a frame was the last one. -/
def CutsMagic (j : Bytes) (fs : List (Bytes × Bytes)) (n : ℕ) : Prop :=
  ∃ done e fs', fs = done ++ e :: fs' ∧ n = (stream j done).length + 1

/-- The same, with `n` bytes still to come. -/
def LeavesCut (fs : List (Bytes × Bytes)) (n : ℕ) : Prop :=
  ∃ done e fs', fs = done ++ e :: fs' ∧ n + 1 = (stream [] (e :: fs')).length

theorem stream_cons (j : Bytes) (e : Bytes × Bytes) (fs : List (Bytes × Bytes)) :
    stream j (e :: fs) = j ++ (encodeFrame e.1 ++ stream e.2 fs) := by
  simp [stream]

theorem length_stream (j : Bytes) (fs : List (Bytes × Bytes)) :
    (stream j fs).length = j.length + (stream [] fs).length := by
  simp [stream]

theorem leavesCut_cons {e : Bytes × Bytes} {fs : List (Bytes × Bytes)} {n : ℕ} :
    LeavesCut (e :: fs) n ↔ n + 1 = (stream [] (e :: fs)).length ∨ LeavesCut fs n := by
  constructor
  · rintro ⟨done, e', fs', heq, hn⟩
    cases done with
    | nil => exact .inl (by rw [hn, heq]; rfl)
    | cons d done => exact .inr ⟨done, e', fs', (List.cons.inj heq).2, hn⟩
  · rintro (h | ⟨done, e', fs', rfl, hn⟩)
    · exact ⟨[], e, fs, rfl, h⟩
    · exact ⟨e :: done, e', fs', rfl, hn⟩

/-- A cut leaves less than the frames. -/
theorem LeavesCut.lt {fs : List (Bytes × Bytes)} {n : ℕ} (h : LeavesCut fs n) :
    n < (stream [] fs).length := by
  obtain ⟨done, e, fs', rfl, hn⟩ := h
  simp only [stream, List.nil_append, List.map_append, spread_append, List.length_append] at hn ⊢
  omega

theorem LeavesCut.append_left {fs : List (Bytes × Bytes)} {n : ℕ} (h : LeavesCut fs n)
    (done : List (Bytes × Bytes)) : LeavesCut (done ++ fs) n := by
  obtain ⟨d, e, fs', rfl, hn⟩ := h
  exact ⟨done ++ d, e, fs', (List.append_assoc _ _ _).symm, hn⟩

/-- **What one append does to a stream**: the complete frames come out and what is kept goes on
with the rest of the stream; or the append ends right after the first byte of a frame, which is
lost. -/
theorem drainFrames_stream {j x y : Bytes} {fs : List (Bytes × Bytes)} (hj : kMagicHead0 ∉ j)
    (hfs : Sent fs) (h : x ++ y = stream j fs) :
    ∃ done fs' rest, fs = done ++ fs' ∧ drainFrames x = .ok (done.map (·.1), rest) ∧
      ((¬ LeavesCut fs y.length ∧ (∀ n ≤ y.length, LeavesCut fs n → LeavesCut fs' n) ∧
          (y = [] → fs' = []) ∧ ∃ j', kMagicHead0 ∉ j' ∧ rest ++ y = stream j' fs') ∨
        LeavesCut fs y.length ∧ rest = [] ∧ fs' ≠ [] ∧ y = (stream [] fs').drop 1) := by
  induction fs generalizing j x with
  | nil =>
    have hxy : x ++ y = j := by simpa [stream] using h
    rw [← hxy, List.mem_append, not_or] at hj
    have hnil : ¬ LeavesCut [] y.length := by
      rintro ⟨done, e, fs', heq, -⟩
      simp at heq
    refine ⟨[], [], [], rfl, ?_,
      .inl ⟨hnil, fun _ _ h => h, fun _ => rfl, y, hj.2, by simp [stream]⟩⟩
    rw [← List.append_nil x, drainFrames_junk hj.1]
    rfl
  | cons e fs ih =>
    obtain ⟨⟨hp, he⟩, hfs⟩ := List.forall_mem_cons.1 hfs
    have hframe := length_encodeFrame hp
    have hstream : (stream [] (e :: fs)).length = e.1.length + 6 + (stream e.2 fs).length := by
      rw [stream_cons, List.nil_append, List.length_append, hframe]
    have hgap := length_stream e.2 fs
    rw [stream_cons] at h
    rcases List.append_eq_append_iff.1 h with ⟨a, rfl, rfl⟩ | ⟨c, rfl, hc⟩
    · -- the append ends before the frame
      rw [List.mem_append, not_or] at hj
      have hy : (a ++ (encodeFrame e.1 ++ stream e.2 fs)).length =
          a.length + (stream [] (e :: fs)).length := by
        rw [hstream, List.length_append, List.length_append, hframe]
      refine ⟨[], e :: fs, [], rfl, ?_, .inl ⟨fun hcut => ?_, fun _ _ h => h, fun h0 => ?_,
        a, hj.2, (stream_cons a e fs).symm⟩⟩
      · rw [← List.append_nil x, drainFrames_junk hj.1]
        rfl
      · have := hcut.lt
        omega
      · rw [h0, List.length_nil] at hy
        omega
    rw [drainFrames_junk hj]
    by_cases hle : e.1.length + 6 ≤ c.length
    · -- the frame is complete
      obtain ⟨a, rfl⟩ : encodeFrame e.1 <+: c :=
        List.prefix_of_prefix_length_le ⟨_, rfl⟩ ⟨y, hc.symm⟩ (hframe ▸ hle)
      rw [List.append_assoc, List.append_cancel_left_eq] at hc
      have hy : y.length ≤ (stream e.2 fs).length := by
        rw [hc, List.length_append]
        omega
      obtain ⟨done, fs', rest, rfl, hok, hres⟩ := ih he hfs hc.symm
      refine ⟨e :: done, fs', rest, rfl, drainFrames_frame hp hok, ?_⟩
      rcases hres with ⟨hcut, hleaves, hend, hrest⟩ | ⟨hcut, hlost⟩
      · refine .inl ⟨fun h' => ?_, fun n hn h' => ?_, hend, hrest⟩
        · exact (leavesCut_cons.1 h').elim (fun h' => by omega) hcut
        · exact (leavesCut_cons.1 h').elim (fun h' => by omega) (hleaves n hn)
      · exact .inr ⟨leavesCut_cons.2 (.inr hcut), hlost⟩
    · -- the append ends within the frame
      have hlt : c.length < e.1.length + 6 := Nat.lt_of_not_le hle
      obtain ⟨b, hb⟩ : c <+: encodeFrame e.1 :=
        List.prefix_of_prefix_length_le ⟨y, hc.symm⟩ ⟨_, rfl⟩ (by omega)
      have hy : y = b ++ stream e.2 fs := by
        rw [← hb, List.append_assoc, List.append_cancel_left_eq] at hc
        exact hc.symm
      have htake : c = (encodeFrame e.1).take c.length := by
        rw [← hb, List.take_left]
      have hylen : y.length + c.length = (stream [] (e :: fs)).length := by
        rw [hstream, ← hframe, ← hb, hy, List.length_append, List.length_append]
        omega
      have hcut : LeavesCut (e :: fs) y.length ↔ c.length = 1 := by
        rw [leavesCut_cons]
        refine ⟨fun h' => h'.elim (fun h' => by omega) fun h' => ?_, fun h' => .inl (by omega)⟩
        have := h'.lt
        omega
      by_cases hone : c.length = 1
      · -- right after its first byte
        refine ⟨[], e :: fs, [], rfl, ?_, .inr ⟨hcut.2 hone, rfl, List.cons_ne_nil _ _, ?_⟩⟩
        · rw [htake, hone]
          exact drainFrames_first hp
        · rw [stream_cons, List.nil_append, ← hb, List.append_assoc, ← hy, ← hone, List.drop_left]
      · refine ⟨[], e :: fs, c, rfl, ?_, .inl ⟨fun h' => hone (hcut.1 h'), fun _ _ h => h,
          fun h0 => ?_, [], List.not_mem_nil, ?_⟩⟩
        · rw [htake]
          exact drainFrames_partial hp hone (by omega)
        · rw [h0, List.length_nil] at hylen
          omega
        · rw [stream_cons, List.nil_append, ← hb, List.append_assoc, hy]

/-- **A run over appends**, from a buffer that holds the start of the stream. -/
theorem drainAll_iff {j buf : Bytes} {fs : List (Bytes × Bytes)} {chunks : List Bytes}
    (hj : kMagicHead0 ∉ j) (hfs : Sent fs) (h : buf ++ chunks.flatten = stream j fs)
    (hend : chunks.flatten = [] → fs = []) :
    drainAll buf chunks = .ok (fs.map (·.1)) ↔
      ∀ before c after, chunks = before ++ c :: after → ¬ LeavesCut fs after.flatten.length := by
  induction chunks generalizing j buf fs with
  | nil =>
    rw [hend rfl]
    exact ⟨fun _ before c after h => by simp at h, fun _ => rfl⟩
  | cons c chunks ih =>
    rw [List.flatten_cons, ← List.append_assoc] at h
    obtain ⟨done, fs', rest, rfl, hok, hres⟩ := drainFrames_stream hj hfs h
    have hfs' : Sent fs' := fun e he => hfs e (List.mem_append_right _ he)
    obtain ⟨out, hall, hfound⟩ := drainAll_ok rest chunks
    have hrun : drainAll buf (c :: chunks) = .ok ((done ++ fs').map (·.1)) ↔
        out = fs'.map (·.1) := by
      rw [drainAll, hok]
      dsimp only
      rw [hall, List.map_append]
      dsimp only
      rw [Except.ok.injEq, List.append_cancel_left_eq]
    rw [hrun]
    rcases hres with ⟨hcut, hleaves, hend', j', hj', hrest⟩ | ⟨hcut, rfl, hne, hdrop⟩
    · have ih := ih hj' hfs' hrest hend'
      rw [hall, Except.ok.injEq] at ih
      rw [ih]
      constructor
      · intro h before c' after heq hleft
        cases before with
        | nil =>
          obtain ⟨rfl, rfl⟩ := List.cons.inj heq
          exact hcut hleft
        | cons _ before =>
          have heq' : chunks = before ++ c' :: after := (List.cons.inj heq).2
          refine h before c' after heq' (hleaves _ ?_ hleft)
          rw [heq', List.flatten_append, List.flatten_cons, List.length_append, List.length_append]
          omega
      · intro h before c' after heq hleft
        exact h (c :: before) c' after (by rw [heq, List.cons_append]) (hleft.append_left done)
    · -- the frames that are left cannot be found without the byte that is lost
      refine ⟨fun hout => absurd hfound ?_, fun h => absurd hcut (h [] c chunks rfl)⟩
      have hmark : ∀ w ∈ fs'.map fun e => (encodeFrame e.1, e.2),
          w.1.head? = some kMagicHead0 ∧ kMagicHead0 ∉ w.2 := by
        intro w hw
        obtain ⟨e, he, rfl⟩ := List.mem_map.1 hw
        obtain ⟨lo, hi, -, heq⟩ := encodeFrame_eq (hfs' e he).1
        exact ⟨by rw [heq]; rfl, (hfs' e he).2⟩
      have hnot := not_found_drop (fun h => hne (List.map_eq_nil_iff.1 h)) hmark Nat.zero_lt_one []
      rw [List.map_map] at hnot
      rw [hout, List.nil_append, hdrop, stream, List.nil_append, List.map_map]
      exact hnot

theorem stream_append (j : Bytes) (done fs : List (Bytes × Bytes)) :
    stream j (done ++ fs) = stream j done ++ stream [] fs := by
  simp [stream]

theorem cutsMagic_iff {j : Bytes} {fs : List (Bytes × Bytes)} {n m : ℕ}
    (h : n + m = (stream j fs).length) : CutsMagic j fs n ↔ LeavesCut fs m := by
  constructor
  · rintro ⟨done, e, fs', rfl, hn⟩
    rw [stream_append, List.length_append] at h
    exact ⟨done, e, fs', rfl, by omega⟩
  · rintro ⟨done, e, fs', rfl, hm⟩
    rw [stream_append, List.length_append] at h
    exact ⟨done, e, fs', rfl, by omega⟩

/-- **The payloads come out as they were sent exactly when no append ends right after the first byte
of a frame.** The loop of `drain_frames` ends on every buffer, and reads nothing outside of it. -/
theorem drained_iff {j : Bytes} {fs : List (Bytes × Bytes)} {chunks : List Bytes}
    (hj : kMagicHead0 ∉ j) (hfs : Sent fs) (hchunks : chunks.flatten = stream j fs) :
    (∀ b, ∃ out rest, drainFrames b = .ok (out, rest)) ∧
      (drainAll [] chunks = .ok (fs.map (·.1)) ↔
        ∀ before after, chunks = before ++ after → ¬ CutsMagic j fs before.flatten.length) := by
  have hend : chunks.flatten = [] → fs = [] := by
    intro h
    cases fs with
    | nil => rfl
    | cons e fs =>
      have hlen := congrArg List.length (h.symm.trans hchunks)
      rw [stream_cons, List.length_append, List.length_append,
        length_encodeFrame (hfs e List.mem_cons_self).1, List.length_nil] at hlen
      omega
  refine ⟨fun b => ?_, (drainAll_iff hj hfs hchunks hend).trans ⟨?_, ?_⟩⟩
  · obtain ⟨out, rest, hok, -⟩ := drainFrames_ok b
    exact ⟨out, rest, hok⟩
  · intro h before after heq hcut
    rcases List.eq_nil_or_concat before with rfl | ⟨before, c, rfl⟩
    · obtain ⟨done, e, fs', -, hn⟩ := hcut
      simp at hn
    · rw [List.concat_eq_append] at heq hcut
      refine h before c after (by rw [heq, List.append_assoc]; rfl) ((cutsMagic_iff ?_).1 hcut)
      rw [← hchunks, heq, ← List.length_append, ← List.flatten_append]
  · intro h before c after heq hleft
    refine h (before ++ [c]) after (by rw [heq, List.append_assoc]; rfl)
      ((cutsMagic_iff ?_).2 hleft)
    rw [← hchunks, heq, List.flatten_append, List.flatten_append, List.flatten_cons,
      List.flatten_cons, List.flatten_nil]
    simp only [List.length_append, List.length_nil]
    omega

/-- A frame that is cut within its length. -/
theorem drained_iff_length :
    drainAll [] [[0xa5, 0xa5, 0x07], [0x00, 0x2a, 0xa7, 0xa7]] = .ok [[0x2a]] := by
  have hfs : Sent [([0x2a], [])] := by
    intro e he
    obtain rfl := List.mem_singleton.1 he
    exact ⟨by decide, List.not_mem_nil⟩
  have hchunks : [[0xa5, 0xa5, 0x07], [0x00, 0x2a, 0xa7, 0xa7]].flatten =
      stream [] [([0x2a], [])] := by
    decide
  refine (drained_iff List.not_mem_nil hfs hchunks).2.2 ?_
  rintro before after heq ⟨done, e, fs', hdone, hn⟩
  obtain rfl : done = [] := by
    rcases done with _ | ⟨d, done⟩
    · rfl
    · simp at hdone
  rcases before with _ | ⟨c, _ | ⟨c', before⟩⟩
  · simp [stream] at hn
  · obtain ⟨rfl, -⟩ := List.cons.inj heq
    simp [stream] at hn
  · have hc' : [0x00, 0x2a, 0xa7, 0xa7] = c' := (List.cons.inj (List.cons.inj heq).2).1
    have hc : [0xa5, 0xa5, 0x07] = c := (List.cons.inj heq).1
    subst hc hc'
    simp [stream] at hn

/-- **A frame whose first byte comes alone is lost.** -/
theorem first_byte_lost :
    Sent [([], [])] ∧ [[0xa5], [0xa5, 0x06, 0x00, 0xa7, 0xa7]].flatten = stream [] [([], [])] ∧
      drainAll [] [[0xa5], [0xa5, 0x06, 0x00, 0xa7, 0xa7]] = .ok [] := by
  refine ⟨fun e he => ?_, by decide, by decide⟩
  obtain rfl := List.mem_singleton.1 he
  exact ⟨Nat.zero_le _, List.not_mem_nil⟩

end BambooNet.Lan.BindFrame
