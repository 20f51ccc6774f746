import BambooNet.Lib.Decimal
import BambooNet.Lib.Lines

/-!
# Replies on the control channel

A reply ends with the first line that starts with three digits and a space. `read_reply` takes lines
off the channel up to that one, and what it reads beyond a line stays in `ctrl_buf`. However the
bytes are cut into reads, a reply that fits is taken off whole, with nothing of what follows it
(`readReply_reply`), and whatever `read_reply` returns is the reply at the head of the channel
(`readReply_unique`).
-/

namespace BambooNet.Ftps

def kMaxControlLine : ℕ := 16 * 1024

def kMaxControlReply : ℕ := 256 * 1024

def cr : UInt8 := 0x0d

def newline : UInt8 := 0x0a

def space : UInt8 := 0x20

/-! ## Reading -/

/-- The control channel before the client: `ctrl_buf`, and what the server sent and no read took. -/
structure Chan where
  buf : Bytes := []
  wire : Bytes := []
  /-- The number of reads so far. -/
  reads : ℕ := 0

def Chan.unread (c : Chan) : Bytes := c.buf ++ c.wire

/-- A read takes as much as has come, at most 512 bytes. With nothing to come it gives up. -/
def ctrlRead (size : ℕ → ℕ) (c : Chan) : Option Chan :=
  if c.wire = [] then none
  else
    let n := min 512 (max 1 (size c.reads))
    some ⟨c.buf ++ c.wire.take n, c.wire.drop n, c.reads + 1⟩

def stripCr (line : Bytes) : Bytes := if line.getLast? = some cr then line.dropLast else line

/-- One line. The loop reads at least one byte in each round. -/
def readLine (size : ℕ → ℕ) : ℕ → Chan → Option Bytes × Chan
  | 0, c => (none, c)
  | fuel + 1, c =>
    match cutAt newline c.buf with
    | some (line, rest) => (some (stripCr line), { c with buf := rest })
    | none =>
      if kMaxControlLine < c.buf.length then (none, c)
      else
        match ctrlRead size c with
        | none => (none, c)
        | some c' => readLine size fuel c'

/-- The last line of a reply. -/
def isFinalLine : Bytes → Bool
  | a :: b :: c :: d :: _ => isDigit a && isDigit b && isDigit c && d = space
  | _ => false

def joinLine (accumulated line : Bytes) : Bytes :=
  if accumulated = [] then line else accumulated ++ newline :: line

/-- The code and the text of a reply. Every round takes a line. -/
def readReplyLoop (size : ℕ → ℕ) : ℕ → Bytes → Chan → Option (ℕ × Bytes) × Chan
  | 0, _, c => (none, c)
  | fuel + 1, accumulated, c =>
    match readLine size (c.wire.length + 1) c with
    | (none, c') => (none, c')
    | (some line, c') =>
      let accumulated := joinLine accumulated line
      if kMaxControlReply < accumulated.length then (none, c')
      else if isFinalLine line then (some (natOf (line.take 3), accumulated), c')
      else readReplyLoop size fuel accumulated c'

def readReply (size : ℕ → ℕ) (c : Chan) : Option (ℕ × Bytes) × Chan :=
  readReplyLoop size (c.unread.length + 1) [] c

/-! ## Replies -/

/-- A reply as the protocol has it. Its last line is told from those before, none of which begins
with three digits and a space. -/
structure Reply where
  more : List Bytes := []
  digits : Bytes
  text : Bytes
  more_open : ∀ l ∈ more, isFinalLine l = false
  more_line : ∀ l ∈ more, newline ∉ l
  digits_three : digits.length = 3
  digits_digit : ∀ c ∈ digits, isDigit c = true
  text_line : newline ∉ text

namespace Reply

def last (r : Reply) : Bytes := r.digits ++ space :: r.text

def lines (r : Reply) : List Bytes := r.more ++ [r.last]

def code (r : Reply) : ℕ := natOf r.digits

def body (r : Reply) : Bytes := r.lines.foldl joinLine []

/-- The reply on the wire. -/
def bytes (r : Reply) : Bytes := unlines newline (r.lines.map (· ++ [cr]))

/-- The reply is within the caps of the client. -/
structure Fits (r : Reply) : Prop where
  line : ∀ l ∈ r.lines, l.length < kMaxControlLine
  body : r.body.length ≤ kMaxControlReply

theorem isFinalLine_last (r : Reply) : isFinalLine r.last = true := by
  have hlen := r.digits_three
  match hd : r.digits, hlen with
  | [a, b, c], _ =>
    have hdigit := r.digits_digit
    rw [hd] at hdigit
    have ha := hdigit a (by simp)
    have hb := hdigit b (by simp)
    have hc := hdigit c (by simp)
    rw [last, hd]
    simp [isFinalLine, ha, hb, hc]

theorem take_last (r : Reply) : r.last.take 3 = r.digits :=
  List.take_left' r.digits_three

theorem newline_not_mem_last (r : Reply) : newline ∉ r.last := by
  simp only [last, List.mem_append, List.mem_cons, not_or]
  refine ⟨fun h => ?_, by decide, r.text_line⟩
  exact absurd (r.digits_digit _ h) (by decide)

theorem newline_not_mem_lines (r : Reply) : ∀ l ∈ r.lines, newline ∉ l := by
  intro l hl
  rcases List.mem_append.1 hl with hl | hl
  · exact r.more_line l hl
  · exact List.mem_singleton.1 hl ▸ r.newline_not_mem_last

end Reply

/-! ## One line -/

section

variable {size : ℕ → ℕ} {c c' : Chan}

theorem ctrlRead_some (h : ctrlRead size c = some c') :
    c'.unread = c.unread ∧ c'.wire.length < c.wire.length := by
  rw [ctrlRead] at h
  split at h
  · cases h
  · next hwire =>
    cases h
    have hlen : 0 < c.wire.length := List.length_pos_iff.2 hwire
    refine ⟨?_, ?_⟩
    · simp only [Chan.unread, List.append_assoc, List.take_append_drop]
    · rw [List.length_drop]
      omega

/-- The line that is returned stood at the head of the channel, and only it is taken off. -/
theorem readLine_some {fuel : ℕ} {l : Bytes} (h : readLine size fuel c = (some l, c')) :
    ∃ raw, c.unread = raw ++ newline :: c'.unread ∧ newline ∉ raw ∧ l = stripCr raw := by
  induction fuel generalizing c with
  | zero => cases h
  | succ fuel ih =>
    rw [readLine] at h
    split at h
    · next raw rest hcut =>
      cases h
      obtain ⟨hbuf, hraw⟩ := cutAt_eq_some_iff.1 hcut
      refine ⟨raw, ?_, hraw, rfl⟩
      rw [Chan.unread, hbuf, List.append_assoc]
      rfl
    · split at h
      · cases h
      · split at h
        · cases h
        · next c'' hread =>
          obtain ⟨raw, hraw⟩ := ih h
          exact ⟨raw, (ctrlRead_some hread).1 ▸ hraw⟩

/-- A line within the cap is read, however it is cut. -/
theorem readLine_isSome {fuel : ℕ} {raw rest : Bytes} (h : c.unread = raw ++ newline :: rest)
    (hlen : raw.length ≤ kMaxControlLine) (hfuel : c.wire.length < fuel) :
    (readLine size fuel c).1.isSome := by
  induction fuel generalizing c with
  | zero => omega
  | succ fuel ih =>
    rw [readLine]
    split
    · rfl
    · next hcut =>
      -- without a newline the buffer is a part of the line
      obtain ⟨part, hpart, hwire⟩ : ∃ part, raw = c.buf ++ part ∧
          c.wire = part ++ newline :: rest := by
        rcases List.append_eq_append_iff.1 h with ⟨part, hpart, hwire⟩ | ⟨part, hbuf, hwire⟩
        · exact ⟨part, hpart, hwire⟩
        · cases part with
          | nil => exact ⟨[], by simpa using hbuf.symm, by simpa using hwire.symm⟩
          | cons a part =>
            obtain ⟨rfl, -⟩ := List.cons.inj hwire
            exact absurd (hbuf ▸ by simp) (cutAt_eq_none_iff.1 hcut)
      have hcap : ¬ kMaxControlLine < c.buf.length := by
        have := congrArg List.length hpart
        rw [List.length_append] at this
        omega
      rw [if_neg hcap]
      cases hread : ctrlRead size c with
      | none =>
        rw [ctrlRead] at hread
        split at hread
        · next hnil =>
          rw [hnil] at hwire
          simp at hwire
        · cases hread
      | some c' =>
        obtain ⟨hunread, hless⟩ := ctrlRead_some hread
        exact ih (hunread ▸ h) (by omega)

/-! ## One reply -/

theorem stripCr_concat (l : Bytes) : stripCr (l ++ [cr]) = l := by
  simp [stripCr]

/-- Lines of which the last one alone ends a reply. -/
structure Ends (raws : List Bytes) (last : Bytes) : Prop where
  line : ∀ raw ∈ raws ++ [last], newline ∉ raw
  more : ∀ raw ∈ raws, isFinalLine (stripCr raw) = false
  last : isFinalLine (stripCr last) = true

/-- What is returned was made from the lines at the head of the channel. -/
theorem readReplyLoop_some {fuel : ℕ} {acc body : Bytes} {code : ℕ}
    (h : readReplyLoop size fuel acc c = (some (code, body), c')) :
    ∃ raws last, Ends raws last ∧
      c.unread = unlines newline (raws ++ [last]) ++ c'.unread ∧
      code = natOf ((stripCr last).take 3) ∧
      body = ((raws ++ [last]).map stripCr).foldl joinLine acc := by
  induction fuel generalizing c acc with
  | zero => cases h
  | succ fuel ih =>
    rw [readReplyLoop] at h
    split at h
    · cases h
    · next line c₁ hline =>
      obtain ⟨raw, hunread, hraw, rfl⟩ := readLine_some hline
      dsimp only at h
      split at h
      · cases h
      · split at h
        · next hfinal =>
          cases h
          refine ⟨[], raw, ⟨?_, ?_, hfinal⟩, ?_, rfl, rfl⟩
          · simpa using hraw
          · simp
          · simpa [unlines] using hunread
        · next hopen =>
          obtain ⟨raws, last, hends, hrest, hcode, hbody⟩ := ih h
          refine ⟨raw :: raws, last, ⟨?_, ?_, hends.last⟩, ?_, hcode, hbody⟩
          · exact List.forall_mem_cons.2 ⟨hraw, hends.line⟩
          · exact List.forall_mem_cons.2 ⟨Bool.eq_false_iff.2 hopen, hends.more⟩
          · rw [hunread, hrest, List.cons_append, unlines_cons, List.append_assoc]
            rfl

/-- The lines of a reply can be told from what follows. -/
theorem Ends.unique {raws raws' : List Bytes} {last last' x y : Bytes} (h : Ends raws last)
    (h' : Ends raws' last') (heq : unlines newline (raws ++ [last]) ++ x =
      unlines newline (raws' ++ [last']) ++ y) : raws = raws' ∧ last = last' ∧ x = y := by
  induction raws generalizing raws' with
  | nil =>
    cases raws' with
    | nil =>
      simp only [List.nil_append, unlines_cons, List.append_assoc, List.cons_append] at heq
      obtain ⟨rfl, htail⟩ := append_cons_inj (h.line _ (by simp)) (h'.line _ (by simp)) heq
      exact ⟨rfl, rfl, htail⟩
    | cons raw' raws' =>
      simp only [List.nil_append, unlines_cons, List.append_assoc, List.cons_append] at heq
      obtain ⟨rfl, -⟩ := append_cons_inj (h.line _ (by simp)) (h'.line _ (by simp)) heq
      exact absurd h.last (Bool.eq_false_iff.1 (h'.more _ List.mem_cons_self))
  | cons raw raws ih =>
    cases raws' with
    | nil =>
      simp only [List.nil_append, unlines_cons, List.append_assoc, List.cons_append] at heq
      obtain ⟨rfl, -⟩ := append_cons_inj (h.line _ (by simp)) (h'.line _ (by simp)) heq
      exact absurd h'.last (Bool.eq_false_iff.1 (h.more _ List.mem_cons_self))
    | cons raw' raws' =>
      simp only [unlines_cons, List.append_assoc, List.cons_append] at heq
      obtain ⟨rfl, htail⟩ := append_cons_inj (h.line _ (by simp)) (h'.line _ (by simp)) heq
      have hrest : Ends raws last := ⟨fun l hl => h.line l (List.mem_cons_of_mem _ hl),
        fun l hl => h.more l (List.mem_cons_of_mem _ hl), h.last⟩
      have hrest' : Ends raws' last' := ⟨fun l hl => h'.line l (List.mem_cons_of_mem _ hl),
        fun l hl => h'.more l (List.mem_cons_of_mem _ hl), h'.last⟩
      obtain ⟨rfl, rfl, rfl⟩ := ih hrest hrest' htail
      exact ⟨rfl, rfl, rfl⟩

theorem Reply.map_lines (r : Reply) :
    r.lines.map (· ++ [cr]) = r.more.map (· ++ [cr]) ++ [r.last ++ [cr]] := by
  rw [Reply.lines, List.map_append, List.map_singleton]

/-- The lines of a reply on the wire. -/
theorem Reply.ends (r : Reply) : Ends (r.more.map (· ++ [cr])) (r.last ++ [cr]) where
  line raw hraw := by
    rw [← r.map_lines] at hraw
    obtain ⟨l, hl, rfl⟩ := List.mem_map.1 hraw
    intro hmem
    rcases List.mem_append.1 hmem with hmem | hmem
    · exact r.newline_not_mem_lines l hl hmem
    · exact absurd (List.mem_singleton.1 hmem) (by decide)
  more raw hraw := by
    obtain ⟨l, hl, rfl⟩ := List.mem_map.1 hraw
    rw [stripCr_concat]
    exact r.more_open l hl
  last := by
    rw [stripCr_concat]
    exact r.isFinalLine_last

/-- **Whatever is returned is the reply at the head of the channel**, taken off whole, even if a
part of the bytes comes too late. -/
theorem readReply_unique {r : Reply} {late rest body : Bytes} {code : ℕ}
    (hunread : c.unread ++ late = r.bytes ++ rest)
    (h : readReply size c = (some (code, body), c')) :
    code = r.code ∧ body = r.body ∧ c'.unread ++ late = rest := by
  obtain ⟨raws, last, hends, hread, rfl, rfl⟩ := readReplyLoop_some h
  rw [hread, Reply.bytes, r.map_lines, List.append_assoc] at hunread
  obtain ⟨rfl, rfl, htail⟩ := hends.unique r.ends hunread
  have hlines : (r.more.map (· ++ [cr]) ++ [r.last ++ [cr]]).map stripCr = r.lines := by
    rw [Reply.lines, List.map_append, List.map_singleton, stripCr_concat, List.map_map]
    congr 1
    conv_rhs => rw [← List.map_id r.more]
    exact List.map_congr_left fun l _ => stripCr_concat l
  refine ⟨?_, ?_, htail⟩
  · rw [stripCr_concat, r.take_last]
    rfl
  · rw [hlines]
    rfl

theorem length_joinLine (acc line : Bytes) : acc.length ≤ (joinLine acc line).length := by
  rw [joinLine]
  split
  · next h => simp [h]
  · rw [List.length_append]
    omega

theorem length_le_foldl_joinLine (ls : List Bytes) (acc : Bytes) :
    acc.length ≤ (ls.foldl joinLine acc).length := by
  induction ls generalizing acc with
  | nil => exact le_refl _
  | cons l ls ih => exact (length_joinLine acc l).trans (ih _)

theorem readLine_line (size : ℕ → ℕ) {l rest : Bytes}
    (hunread : c.unread = l ++ [cr] ++ newline :: rest) (hl : newline ∉ l)
    (hlen : l.length < kMaxControlLine) :
    ∃ c', readLine size (c.wire.length + 1) c = (some l, c') ∧ c'.unread = rest := by
  have hraw : newline ∉ l ++ [cr] := by
    simp only [List.mem_append, List.mem_singleton, not_or]
    exact ⟨hl, by decide⟩
  have hsome : (readLine size (c.wire.length + 1) c).1.isSome := by
    refine readLine_isSome hunread ?_ (Nat.lt_succ_self _)
    rw [List.length_append]
    exact hlen
  match hread : readLine size (c.wire.length + 1) c with
  | (none, c') =>
    rw [hread] at hsome
    cases hsome
  | (some l', c') =>
    obtain ⟨raw, hhead, hnot, rfl⟩ := readLine_some hread
    obtain ⟨rfl, hrest⟩ := append_cons_inj hnot hraw (hhead.symm.trans hunread)
    exact ⟨c', by rw [stripCr_concat], hrest⟩

/-- Lines within the caps are read up to the one that ends the reply. -/
theorem readReplyLoop_isSome {fuel : ℕ} {acc rest last : Bytes} {ls : List Bytes}
    (hunread : c.unread = unlines newline ((ls ++ [last]).map (· ++ [cr])) ++ rest)
    (hline : ∀ l ∈ ls ++ [last], newline ∉ l ∧ l.length < kMaxControlLine)
    (hlast : isFinalLine last = true)
    (hbody : ((ls ++ [last]).foldl joinLine acc).length ≤ kMaxControlReply)
    (hfuel : ls.length < fuel) : (readReplyLoop size fuel acc c).1.isSome := by
  induction ls generalizing fuel acc c with
  | nil =>
    obtain ⟨fuel, rfl⟩ := Nat.exists_eq_succ_of_ne_zero (Nat.pos_iff_ne_zero.1 hfuel)
    obtain ⟨hl, hlen⟩ := hline last (by simp)
    have hhead : c.unread = last ++ [cr] ++ newline :: rest := by
      simpa [unlines] using hunread
    obtain ⟨c', hread, -⟩ := readLine_line size hhead hl hlen
    have hcap : ¬ kMaxControlReply < (joinLine acc last).length := not_lt.2 hbody
    simp [readReplyLoop, hread, hcap, hlast]
  | cons l ls ih =>
    obtain ⟨fuel, rfl⟩ := Nat.exists_eq_succ_of_ne_zero (Nat.ne_of_gt (Nat.zero_lt_of_lt hfuel))
    obtain ⟨hl, hlen⟩ := hline l (by simp)
    have hhead : c.unread = l ++ [cr] ++
        newline :: (unlines newline ((ls ++ [last]).map (· ++ [cr])) ++ rest) := by
      simpa using hunread
    obtain ⟨c', hread, hrest⟩ := readLine_line size hhead hl hlen
    have hcap : ¬ kMaxControlReply < (joinLine acc l).length :=
      not_lt.2 ((length_le_foldl_joinLine _ _).trans hbody)
    cases hfinal : isFinalLine l with
    | true => simp [readReplyLoop, hread, hcap, hfinal]
    | false =>
      have hloop := ih hrest (fun l' hl' => hline l' (List.mem_cons_of_mem _ hl')) hbody
        (Nat.lt_of_succ_lt_succ hfuel)
      simpa [readReplyLoop, hread, hcap, hfinal] using hloop

/-- **A reply that fits is taken off whole**, however it is cut into reads. -/
theorem readReply_reply {r : Reply} (hr : r.Fits) {rest : Bytes}
    (hunread : c.unread = r.bytes ++ rest) :
    ∃ c', readReply size c = (some (r.code, r.body), c') ∧ c'.unread = rest := by
  have hlong (ls : List Bytes) : ls.length ≤ (unlines newline ls).length := by
    induction ls with
    | nil => exact le_refl _
    | cons l ls ih =>
      rw [unlines_cons, List.length_append, List.length_cons, List.length_cons]
      omega
  have hfuel : r.more.length < c.unread.length + 1 := by
    have := hlong (r.lines.map (· ++ [cr]))
    rw [r.map_lines, List.length_append, List.length_map, ← r.map_lines] at this
    rw [hunread, List.length_append, Reply.bytes]
    omega
  have hsome : (readReply size c).1.isSome :=
    readReplyLoop_isSome hunread
      (fun l hl => ⟨r.newline_not_mem_lines l hl, hr.line l hl⟩) r.isFinalLine_last hr.body hfuel
  match hread : readReply size c with
  | (none, c') =>
    rw [hread] at hsome
    cases hsome
  | (some (code, body), c') =>
    have hall : c.unread ++ [] = r.bytes ++ rest := (List.append_nil _).trans hunread
    obtain ⟨rfl, rfl, hrest⟩ := readReply_unique hall hread
    exact ⟨c', rfl, (List.append_nil _).symm.trans hrest⟩

end

end BambooNet.Ftps
