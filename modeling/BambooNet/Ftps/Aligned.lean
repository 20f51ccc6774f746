import BambooNet.Ftps.Client
import BambooNet.Lib.Runs

/-!
# The control channel stays aligned

Every reply that `send_cmd` returns should be the server's reply to that very command. A final reply
that nobody reads shifts all that follow. The transfers leave one behind where they return after the
preliminary reply without another read: where the handshake of the data connection fails, and in
`stor` where a write fails or the caller cancels. So do a reply that comes too late or exceeds the
caps, and a path with a line break in it, which is a second command.

**Theorem (`aligned_run`).** In every run without these, each reply that is returned belongs to its
command, until the connection is lost.
-/

namespace BambooNet.Ftps

/-- The reply that was returned is the server's reply to the command. -/
def Answered (x : Exchange) : Prop :=
  ∀ code body, x.got = some (code, body) →
    x.stale = [] ∧ code = x.answer.code ∧ body = x.answer.body

/-- Every reply that was returned. -/
def Aligned (s : State) : Prop := ∀ x ∈ s.log, Answered x

/-! ## The conditions on an operation -/

/-- The command of an operation. -/
def Op.cmd : Op → Bytes
  | .size path => ascii "SIZE " ++ path
  | .dele path => ascii "DELE " ++ path
  | .cwd path => ascii "CWD " ++ path
  | .list path => listCmd path
  | .listEntries path => listCmd path
  | .retr path _ => ascii "RETR " ++ path
  | .stor _ path _ => ascii "STOR " ++ path

def Op.transfers : Op → Bool
  | .size _ | .dele _ | .cwd _ => false
  | .list _ | .listEntries _ | .retr _ _ | .stor _ _ _ => true

/-- The server's answers in an operation. -/
def Event.responses (e : Event) : List Response :=
  (if e.op.transfers then [e.out.σ.respond (ascii "PASV")] else []) ++ [e.out.σ.respond e.op.cmd]

def Response.Fits (R : Response) : Prop := R.first.Fits ∧ ∀ fin, R.pending = some fin → fin.Fits

/-- The server opens a data connection and starts the transfer. -/
structure Begins (o : Outside) (cmd : Bytes) : Prop where
  sends : (o.ctrl 0).sends = true ∧ (o.ctrl 1).sends = true
  pasv : (o.σ.respond (ascii "PASV")).first.code = 227
  addr : (parsePasvReply (o.σ.respond (ascii "PASV")).first.body).isSome
  tcp : o.tcp = none
  taken : (o.σ.respond cmd).pending.isSome

/-- No return between the preliminary reply and the final one. -/
def Finishes (useTls : Bool) (e : Event) : Prop :=
  (useTls = true → e.out.tls = none) ∧
  ∀ localPath path progress f, e.op = .stor localPath path progress → e.out.file = .ok f →
    (sendFile e.out progress f).1 = none

/-- An operation after which nothing is left on the control channel, if the connection lives. -/
structure Sound (useTls : Bool) (e : Event) : Prop where
  line : ¬ crlf <:+: e.op.cmd
  kept : e.out.lost = false → (∀ i < 3, (e.out.ctrl i).avail = none) ∧
    (∀ R ∈ e.responses, R.Fits) ∧
    (e.op.transfers = true → Begins e.out e.op.cmd → Finishes useTls e)

/-! ## One command -/

/-- Nothing is unread, and the server owes at most this reply. -/
structure Idle (pending : Option Reply) (s : State) : Prop where
  buf : s.ctrlBuf = []
  wire : s.wire = []
  todo : s.todo = []
  busy : s.busy = pending

/-- A command without a line break is one command line. -/
theorem commands_line {cmd : Bytes} (h : ¬ crlf <:+: cmd) : commands (cmd ++ crlf) = [cmd] := by
  induction cmd with
  | nil => rfl
  | cons c t ih =>
    have ht : ¬ crlf <:+: t := fun hin => h (hin.trans (List.suffix_cons c t).isInfix)
    obtain ⟨d, rest, hd, hne⟩ : ∃ d rest, t ++ crlf = d :: rest ∧ ¬ (c = cr ∧ d = newline) := by
      cases t with
      | nil => exact ⟨cr, [newline], rfl, fun hc => absurd hc.2 (by decide)⟩
      | cons d t =>
        refine ⟨d, t ++ crlf, rfl, ?_⟩
        rintro ⟨rfl, rfl⟩
        exact h ⟨[], t, rfl⟩
    rw [List.cons_append, hd, commands, if_neg hne, ← hd, ih ht]

variable {σ : Service} {io : Ctrl} {s : State} {p : Option Reply}

/-- The reply that is on the channel is returned or comes too late. -/
theorem readReply_idle (io : Ctrl) {r : Reply} (hbuf : s.ctrlBuf = []) (hwire : s.wire = r.bytes)
    (hlost : s.lost = false) :
    ∃ got s', s.readReply io = (got, s') ∧ s'.todo = s.todo ∧ s'.busy = s.busy ∧
      s'.lost = false ∧ s'.log = s.log ∧
      (∀ code body, got = some (code, body) →
        code = r.code ∧ body = r.body ∧ s'.ctrlBuf = [] ∧ s'.wire = []) ∧
      (io.avail = none → r.Fits → got.isSome) := by
  set n := io.avail.getD s.wire.length with hn
  set c : Chan := { buf := [], wire := s.wire.take n } with hc
  have hunread : c.unread ++ s.wire.drop n = r.bytes ++ [] := by
    rw [List.append_nil, ← hwire]
    exact List.take_append_drop n s.wire
  refine ⟨(Ftps.readReply io.size c).1, { s with
    ctrlBuf := (Ftps.readReply io.size c).2.buf
    wire := (Ftps.readReply io.size c).2.wire ++ s.wire.drop n }, ?_, rfl, rfl, hlost, rfl, ?_, ?_⟩
  · simp [State.readReply, hlost, hbuf, hn, hc]
  · intro code body hgot
    obtain ⟨hcode, hbody, hrest⟩ := readReply_unique hunread (Prod.ext hgot rfl)
    rw [Chan.unread, List.append_assoc] at hrest
    obtain ⟨hbuf', hrest⟩ := List.append_eq_nil_iff.1 hrest
    exact ⟨hcode, hbody, hbuf', hrest⟩
  · intro havail hfits
    have hall : c.unread = r.bytes ++ [] := by
      rw [List.append_nil, ← hwire, hc, hn, havail]
      exact List.take_length
    obtain ⟨c', hread, -⟩ := readReply_reply hfits hall
    rw [hread]
    rfl

theorem serve_single (σ : Service) (cmd : Bytes) :
    serve σ [cmd] = ((σ.respond cmd).first.bytes, [], (σ.respond cmd).pending) := by
  cases h : σ.respond cmd <;> simp [serve, h, Response.first, Response.pending]

/-- The command is all that the server works on. -/
theorem receive_idle (h : Idle none s) (cmd : Bytes) :
    s.receive σ [cmd] = { s with
      wire := (σ.respond cmd).first.bytes
      todo := []
      busy := (σ.respond cmd).pending } := by
  simp [State.receive, h.busy, h.todo, h.wire, serve_single]

/-- The log has the answer of every command that was sent on an idle channel. -/
theorem sendCmd_idle (σ : Service) (io : Ctrl) {cmd : Bytes} (h : Idle none s)
    (hlost : s.lost = false) (hline : ¬ crlf <:+: cmd) :
    ∃ got s', sendCmd σ io cmd s = (got, s') ∧ s'.lost = false ∧
      s'.log = ⟨cmd, [], (σ.respond cmd).first, got⟩ :: s.log ∧
      (∀ code body, got = some (code, body) → code = (σ.respond cmd).first.code ∧
        body = (σ.respond cmd).first.body ∧ Idle (σ.respond cmd).pending s' ∧ io.sends = true) ∧
      (got = none → io.avail = none → (σ.respond cmd).first.Fits → Idle none s') := by
  have hstale : s.unread = [] := by rw [State.unread, h.buf, h.wire]; rfl
  cases hsends : io.sends with
  | false =>
    refine ⟨none, { s with log := ⟨cmd, [], (σ.respond cmd).first, none⟩ :: s.log }, ?_, hlost, rfl,
      (fun _ _ hgot => by cases hgot), fun _ _ _ => ⟨h.buf, h.wire, h.todo, h.busy⟩⟩
    simp [sendCmd, hsends, hstale]
  | true =>
    obtain ⟨got, s', hread, htodo, hbusy, hlost', hlog, hgot, hsome⟩ :=
      readReply_idle io (s := s.receive σ [cmd]) (r := (σ.respond cmd).first)
        (by rw [receive_idle h]; exact h.buf) (by rw [receive_idle h])
        (by rw [receive_idle h]; exact hlost)
    rw [receive_idle h] at htodo hbusy hlog
    refine ⟨got, { s' with log := ⟨cmd, [], (σ.respond cmd).first, got⟩ :: s'.log }, ?_, hlost', ?_,
      fun code body heq => ?_, fun hnone havail hfits => ?_⟩
    · simp [sendCmd, hsends, hlost, commands_line hline, hread, hstale]
    · rw [hlog]
    · obtain ⟨hcode, hbody, hbuf, hwire⟩ := hgot code body heq
      exact ⟨hcode, hbody, ⟨hbuf, hwire, htodo, hbusy⟩, rfl⟩
    · rw [hnone] at hsome
      cases hsome havail hfits

/-- What is known of a command that was sent on an idle channel. -/
structure Sent (io : Ctrl) (R : Response) (got : Option (ℕ × Bytes)) (s : State) : Prop where
  aligned : Aligned s
  lost : s.lost = false
  some : ∀ code body, got = some (code, body) →
    code = R.first.code ∧ body = R.first.body ∧ Idle R.pending s ∧ io.sends = true
  none : got = none → io.avail = none → R.first.Fits → Idle none s

theorem sendCmd_sent {cmd : Bytes} (ha : Aligned s) (h : Idle none s) (hlost : s.lost = false)
    (hline : ¬ crlf <:+: cmd) :
    Sent io (σ.respond cmd) (sendCmd σ io cmd s).1 (sendCmd σ io cmd s).2 := by
  obtain ⟨got, s', hsend, hlost', hlog, hsome, hnone⟩ :=
    sendCmd_idle σ io h hlost hline
  rw [hsend]
  refine ⟨fun x hx => ?_, hlost', hsome, hnone⟩
  rw [hlog] at hx
  rcases List.mem_cons.1 hx with rfl | hx
  · intro code body heq
    obtain ⟨hcode, hbody, -⟩ := hsome code body heq
    exact ⟨rfl, hcode, hbody⟩
  · exact ha x hx

/-- A command that starts no transfer leaves the channel idle. -/
theorem Sent.idle {R : Response} {got : Option (ℕ × Bytes)} (h : Sent io R got s)
    (hfinal : R.pending = Option.none) (havail : io.avail = Option.none) (hfits : R.first.Fits) :
    Idle Option.none s := by
  cases hgot : got with
  | none => exact h.none hgot havail hfits
  | some e => exact hfinal ▸ (h.some e.1 e.2 hgot).2.2.1

theorem pending_of_not_transfer {cmd : Bytes} (h : isTransfer cmd = false) :
    (σ.respond cmd).pending = none := by
  cases hR : σ.respond cmd with
  | final r => rfl
  | transfer preliminary fin =>
    exact absurd (σ.transfers cmd preliminary fin hR) (by rw [h]; exact Bool.false_ne_true)

/-- A command with another name is no transfer. -/
theorem not_isTransfer {name : Bytes} (h : ∀ a ∈ [ascii "STOR ", ascii "RETR ", ascii "LIST"],
    ¬ a <+: name ∧ ¬ name <+: a) (path : Bytes) : isTransfer (name ++ path) = false := by
  have hne (a : Bytes) (ha : a ∈ [ascii "STOR ", ascii "RETR ", ascii "LIST"]) :
      ¬ a <+: name ++ path := by
    rintro ⟨x, hx⟩
    exact append_ne_append (h a ha).1 (h a ha).2 x path hx
  have hlist : ¬ ascii "LIST " <+: name ++ path := fun hp =>
    hne _ (by simp) ((show ascii "LIST" <+: ascii "LIST " by decide).trans hp)
  have heq : name ++ path ≠ ascii "LIST" := fun heq =>
    hne (ascii "LIST") (by simp) (heq ▸ List.prefix_refl _)
  simp [isTransfer, hne (ascii "STOR ") (by simp), hne (ascii "RETR ") (by simp), hlist, heq]

/-! ## The data connection -/

theorem closeData_idle (h : Idle none s) : s.closeData σ = s := by
  rw [State.closeData, h.busy]

theorem closeData_log (s : State) : (s.closeData σ).log = s.log := by
  unfold State.closeData
  split <;> rfl

/-- The final reply is all that is on the channel. -/
theorem closeData_busy {fin : Reply} (h : Idle (some fin) s) :
    s.closeData σ = { s with wire := fin.bytes, todo := [], busy := none } := by
  simp [State.closeData, h.busy, h.wire, h.todo, serve]

/-- Reading the final reply leaves the channel idle. -/
theorem endTransfer_idle {o : Outside} {fin : Reply} (h : Idle (some fin) s)
    (hlost : s.lost = false) : (endTransfer o s).2.log = s.log ∧
      ((o.ctrl 2).avail = none → fin.Fits → Idle none (endTransfer o s).2) := by
  obtain ⟨got, s', hread, htodo, hbusy, -, hlog, hgot, hsome⟩ :=
    readReply_idle (o.ctrl 2) (s := s.closeData o.σ) (r := fin)
      (by rw [closeData_busy h]; exact h.buf) (by rw [closeData_busy h])
      (by rw [closeData_busy h]; exact hlost)
  rw [closeData_busy h] at htodo hbusy hlog
  rw [endTransfer, hread]
  refine ⟨hlog, fun havail hfits => ?_⟩
  obtain ⟨⟨code, body⟩, heq⟩ := Option.isSome_iff_exists.1 (hsome havail hfits)
  obtain ⟨-, -, hbuf, hwire⟩ := hgot code body heq
  exact ⟨hbuf, hwire, htodo, hbusy⟩

theorem exists_of_codeOf {r : Option (ℕ × Bytes)} {n : ℕ} (h : codeOf r = n) :
    ∃ body, r = some (n, body) := by
  cases r with
  | none =>
    have h : (-1 : ℤ) = n := h
    omega
  | some e =>
    have h : (e.1 : ℤ) = n := h
    exact ⟨e.2, congrArg some (Prod.ext (Int.ofNat.inj h) rfl)⟩

theorem openDataTcp_spec {o : Outside} (ha : Aligned s) (h : Idle none s) (hlost : s.lost = false) :
    Aligned (openDataTcp o s).2 ∧ (openDataTcp o s).2.lost = false ∧
    ((openDataTcp o s).1 = none → Idle none (openDataTcp o s).2 ∧ (o.ctrl 0).sends = true ∧
      (o.σ.respond (ascii "PASV")).first.code = 227 ∧
      (parsePasvReply (o.σ.respond (ascii "PASV")).first.body).isSome ∧ o.tcp = none) ∧
    ((o.ctrl 0).avail = none → (o.σ.respond (ascii "PASV")).first.Fits →
      Idle none (openDataTcp o s).2) := by
  have hsent : Sent (o.ctrl 0) (o.σ.respond (ascii "PASV")) _ _ :=
    sendCmd_sent ha h hlost (by decide)
  have hfinal : (o.σ.respond (ascii "PASV")).pending = none := pending_of_not_transfer (by decide)
  have hstate : (openDataTcp o s).2 = (sendCmd o.σ (o.ctrl 0) (ascii "PASV") s).2 := by
    simp only [openDataTcp]
    split
    · rfl
    · split <;> rfl
  rw [hstate]
  refine ⟨hsent.aligned, hsent.lost, fun hnone => ?_, hsent.idle hfinal⟩
  simp only [openDataTcp] at hnone
  split at hnone
  · cases hnone
  · next hcode =>
    obtain ⟨body, hgot⟩ := exists_of_codeOf (n := 227) (not_not.1 hcode)
    obtain ⟨hcode, rfl, hidle, hsends⟩ := hsent.some _ _ hgot
    rw [hgot] at hnone
    split at hnone
    · cases hnone
    · next e haddr =>
      exact ⟨hfinal ▸ hidle, hsends, hcode.symm, Option.isSome_iff_exists.2 ⟨e, haddr⟩,
        Option.map_eq_none_iff.1 hnone⟩

/-- The first reply tells whether a transfer was taken up. -/
theorem pending_isSome_iff (σ : Service) (cmd : Bytes) : (σ.respond cmd).pending.isSome ↔
    (σ.respond cmd).first.code = 150 ∨ (σ.respond cmd).first.code = 125 := by
  cases hR : σ.respond cmd with
  | final r =>
    have hcode := σ.final_code cmd r hR
    simp only [Response.pending, Response.first, Option.isSome_none, Bool.false_eq_true, false_iff]
    omega
  | transfer preliminary fin =>
    simpa [Response.pending, Response.first] using σ.preliminary_code cmd preliminary fin hR

theorem beginTransfer_spec (useTls : Bool) (o : Outside) (name : Bytes) {cmd : Bytes}
    (ha : Aligned s) (h : Idle none s) (hlost : s.lost = false) (hline : ¬ crlf <:+: cmd) :
    Aligned (beginTransfer useTls o name cmd s).2 ∧
    ((beginTransfer useTls o name cmd s).1 = none →
      (beginTransfer useTls o name cmd s).2.lost = false ∧ Begins o cmd ∧
        Idle (o.σ.respond cmd).pending (beginTransfer useTls o name cmd s).2) ∧
    (∀ err, (beginTransfer useTls o name cmd s).1 = some err → (∀ i < 3, (o.ctrl i).avail = none) →
      (o.σ.respond (ascii "PASV")).first.Fits → (o.σ.respond cmd).first.Fits →
      (Begins o cmd → useTls = true → o.tls = none) →
      Idle none (beginTransfer useTls o name cmd s).2) := by
  obtain ⟨ha₁, hlost₁, hopen, hidle₁⟩ := openDataTcp_spec (o := o) ha h hlost
  cases hdata : openDataTcp o s with
  | mk err s₁ =>
    rw [hdata] at ha₁ hlost₁ hopen hidle₁
    cases err with
    | some err =>
      simp only [beginTransfer, hdata]
      exact ⟨ha₁, (fun hnone => by cases hnone), fun _ _ havail hpasv _ _ =>
        hidle₁ (havail 0 (by decide)) hpasv⟩
    | none =>
      obtain ⟨hidle, hsends₀, hpasv, haddr, htcp⟩ := hopen rfl
      have hsent : Sent (o.ctrl 1) (o.σ.respond cmd) (sendCmd o.σ (o.ctrl 1) cmd s₁).1
          (sendCmd o.σ (o.ctrl 1) cmd s₁).2 := sendCmd_sent ha₁ hidle hlost₁ hline
      have hclose : Aligned ((sendCmd o.σ (o.ctrl 1) cmd s₁).2.closeData o.σ) := by
        rw [Aligned, closeData_log]
        exact hsent.aligned
      simp only [beginTransfer, hdata]
      split
      · next hrejected =>
        refine ⟨hclose, (fun hnone => by cases hnone), fun _ _ havail _ hfits _ => ?_⟩
        have hidle₂ : Idle none (sendCmd o.σ (o.ctrl 1) cmd s₁).2 := by
          cases hgot : (sendCmd o.σ (o.ctrl 1) cmd s₁).1 with
          | none => exact hsent.none hgot (havail 1 (by decide)) hfits
          | some e =>
            obtain ⟨hcode, -, hidle₂, -⟩ := hsent.some e.1 e.2 hgot
            cases hpending : (o.σ.respond cmd).pending with
            | none => exact hpending ▸ hidle₂
            | some fin =>
              have hstart := (pending_isSome_iff o.σ cmd).1 (by rw [hpending]; rfl)
              rw [hgot] at hrejected
              simp only [codeOf, Option.map_some, Option.getD_some, hcode] at hrejected
              omega
        exact (closeData_idle hidle₂).symm ▸ hidle₂
      · next htaken =>
        obtain ⟨code, body, hgot, hcode⟩ : ∃ code body,
            (sendCmd o.σ (o.ctrl 1) cmd s₁).1 = some (code, body) ∧ (code = 150 ∨ code = 125) := by
          by_cases hcode : codeOf (sendCmd o.σ (o.ctrl 1) cmd s₁).1 = 150
          · obtain ⟨body, hgot⟩ := exists_of_codeOf (n := 150) hcode
            exact ⟨150, body, hgot, .inl rfl⟩
          · have hcode : codeOf (sendCmd o.σ (o.ctrl 1) cmd s₁).1 = 125 :=
              not_not.1 fun hne => htaken ⟨hcode, hne⟩
            obtain ⟨body, hgot⟩ := exists_of_codeOf (n := 125) hcode
            exact ⟨125, body, hgot, .inr rfl⟩
        obtain ⟨rfl, -, hidle₂, hsends₁⟩ := hsent.some _ _ hgot
        have hbegins : Begins o cmd := ⟨⟨hsends₀, hsends₁⟩, hpasv, haddr, htcp,
          (pending_isSome_iff o.σ cmd).2 hcode⟩
        split
        · next htls =>
          split
          · next err herr =>
            refine ⟨hclose, (fun hnone => by cases hnone), fun _ _ _ _ _ hok => ?_⟩
            rw [hok hbegins htls] at herr
            cases herr
          · exact ⟨hsent.aligned, fun _ => ⟨hsent.lost, hbegins, hidle₂⟩,
              fun _ herr => by cases herr⟩
        · exact ⟨hsent.aligned, fun _ => ⟨hsent.lost, hbegins, hidle₂⟩, fun _ herr => by cases herr⟩

/-! ## One operation -/

/-- The channel after an operation: nothing is left, unless the connection is lost. -/
structure Kept (o : Outside) (s : State) : Prop where
  aligned : Aligned s
  idle : o.lost = false → Idle none s

section

variable {useTls : Bool} {e : Event}

theorem kept_sendCmd {name path : Bytes} (he : Sound useTls e) (hcmd : e.op.cmd = name ++ path)
    (hname : ∀ a ∈ [ascii "STOR ", ascii "RETR ", ascii "LIST"], ¬ a <+: name ∧ ¬ name <+: a)
    (ha : Aligned s) (h : Idle none s) (hlost : s.lost = false) :
    Kept e.out (sendCmd e.out.σ (e.out.ctrl 0) (name ++ path) s).2 := by
  have hsent : Sent (e.out.ctrl 0) (e.out.σ.respond (name ++ path)) _ _ :=
    sendCmd_sent ha h hlost (hcmd ▸ he.line)
  refine ⟨hsent.aligned, fun hlive => ?_⟩
  obtain ⟨havail, hfits, -⟩ := he.kept hlive
  have hR : e.out.σ.respond e.op.cmd ∈ e.responses := List.mem_append_right _ (by simp)
  rw [hcmd] at hR
  exact hsent.idle (pending_of_not_transfer (not_isTransfer hname path)) (havail 0 (by decide))
    (hfits _ hR).1

/-- A transfer either failed at its start, or only the final reply is still to be read. -/
theorem kept_beginTransfer (name : Bytes) (he : Sound useTls e) (ht : e.op.transfers = true)
    (ha : Aligned s) (h : Idle none s) (hlost : s.lost = false) :
    (∀ err s₁, beginTransfer useTls e.out name e.op.cmd s = (some err, s₁) → Kept e.out s₁) ∧
    ∀ s₁, beginTransfer useTls e.out name e.op.cmd s = (none, s₁) →
      Kept e.out (endTransfer e.out s₁).2 ∧ Aligned s₁ ∧ Begins e.out e.op.cmd := by
  obtain ⟨haligned, hbegun, hidle⟩ := beginTransfer_spec useTls e.out name ha h hlost he.line
  have hR : e.out.σ.respond e.op.cmd ∈ e.responses := List.mem_append_right _ (by simp)
  constructor
  · intro err s₁ heq
    rw [heq] at haligned hidle
    refine ⟨haligned, fun hlive => ?_⟩
    obtain ⟨havail, hfits, hfinish⟩ := he.kept hlive
    refine hidle err rfl havail (hfits _ ?_).1 (hfits _ hR).1 fun hb => (hfinish ht hb).1
    exact List.mem_append_left _ (by simp [ht])
  · intro s₁ heq
    rw [heq] at haligned hbegun
    obtain ⟨hlost₁, hb, hidle₁⟩ := hbegun rfl
    obtain ⟨fin, hfin⟩ := Option.isSome_iff_exists.1 hb.taken
    obtain ⟨hlog, hdone⟩ := endTransfer_idle (o := e.out) (hfin ▸ hidle₁) hlost₁
    refine ⟨⟨?_, fun hlive => ?_⟩, haligned, hb⟩
    · rw [Aligned, hlog]
      exact haligned
    · obtain ⟨havail, hfits, -⟩ := he.kept hlive
      exact hdone (havail 2 (by decide)) ((hfits _ hR).2 fin hfin)

/-- **An operation that meets the conditions keeps the channel aligned.** -/
theorem kept_perform (he : Sound useTls e) (ha : Aligned s) (h : Idle none s)
    (hlost : s.lost = false) : Kept e.out (perform useTls s e) := by
  obtain ⟨op, o⟩ := e
  cases op with
  | size path =>
    have hstate : (size o path s).2 = (sendCmd o.σ (o.ctrl 0) (ascii "SIZE " ++ path) s).2 := by
      simp only [size]
      split
      · rfl
      · split <;> rfl
    simp only [perform, hstate]
    exact kept_sendCmd he rfl (by decide) ha h hlost
  | dele path =>
    have hstate : (dele o path s).2 = (sendCmd o.σ (o.ctrl 0) (ascii "DELE " ++ path) s).2 := by
      simp only [dele]
      split <;> rfl
    simp only [perform, hstate]
    exact kept_sendCmd he rfl (by decide) ha h hlost
  | cwd path =>
    have hstate : (cwd o path s).2 = (sendCmd o.σ (o.ctrl 0) (ascii "CWD " ++ path) s).2 := by
      simp only [cwd]
      split <;> rfl
    simp only [perform, hstate]
    exact kept_sendCmd he rfl (by decide) ha h hlost
  | list path =>
    obtain ⟨hfail, hend⟩ := kept_beginTransfer (ascii "LIST") he rfl ha h hlost
    simp only [perform, list]
    split
    · next err s₁ hb => exact hfail err s₁ hb
    · next s₁ hb =>
      split <;> exact (hend s₁ hb).1
  | listEntries path =>
    obtain ⟨hfail, hend⟩ := kept_beginTransfer (ascii "LIST") he rfl ha h hlost
    simp only [perform, listEntries]
    split
    · next err s₁ hb => exact hfail err s₁ hb
    · next s₁ hb =>
      split <;> exact (hend s₁ hb).1
  | retr path sink =>
    obtain ⟨hfail, hend⟩ := kept_beginTransfer (ascii "RETR") he rfl ha h hlost
    simp only [perform, retr]
    split
    · next err s₁ hb => exact hfail err s₁ hb
    · next s₁ hb =>
      split
      · exact (hend s₁ hb).1
      · split <;> exact (hend s₁ hb).1
  | stor localPath path progress =>
    obtain ⟨hfail, hend⟩ := kept_beginTransfer (ascii "STOR") he rfl ha h hlost
    simp only [perform, stor]
    split
    · exact ⟨ha, fun _ => h⟩
    · next f hfile =>
      split
      · next err s₁ hb => exact hfail err s₁ hb
      · next s₁ hb =>
        obtain ⟨hkept, ha₁, hbegins⟩ := hend s₁ hb
        split
        · next why sent hsend =>
          -- the file was not sent to its end
          refine ⟨?_, fun hlive => ?_⟩
          · rw [Aligned, closeData_log]
            exact ha₁
          · have hfinish := ((he.kept hlive).2.2 rfl hbegins).2 localPath path progress f rfl hfile
            rw [hsend] at hfinish
            cases hfinish
        · split <;> exact hkept

end

/-! ## Runs -/

/-- A lost connection returns no reply. -/
theorem aligned_sendCmd_lost (σ : Service) (io : Ctrl) (ha : Aligned s) (hlost : s.lost = true)
    (cmd : Bytes) :
    (sendCmd σ io cmd s).1 = none ∧ Aligned (sendCmd σ io cmd s).2 := by
  have hsend : sendCmd σ io cmd s =
      (none, { s with log := ⟨cmd, s.unread, (σ.respond cmd).first, none⟩ :: s.log }) := by
    simp [sendCmd, hlost]
  rw [hsend]
  refine ⟨rfl, fun x hx => ?_⟩
  rcases List.mem_cons.1 hx with rfl | hx
  · intro _ _ heq
    cases heq
  · exact ha x hx

theorem aligned_beginTransfer_lost (ha : Aligned s) (hlost : s.lost = true) (useTls : Bool)
    (o : Outside) (name cmd : Bytes) : ∃ err s₁,
      beginTransfer useTls o name cmd s = (some err, s₁) ∧ Aligned s₁ := by
  obtain ⟨hnone, ha₁⟩ := aligned_sendCmd_lost o.σ (o.ctrl 0) ha hlost (ascii "PASV")
  refine ⟨ascii "PASV rejected: code=" ++ decimalInt (-1),
    (sendCmd o.σ (o.ctrl 0) (ascii "PASV") s).2, ?_, ha₁⟩
  have hcode : codeOf none = -1 := rfl
  simp [beginTransfer, openDataTcp, hnone, hcode]

theorem aligned_lost {useTls : Bool} (ha : Aligned s) (hlost : s.lost = true) (e : Event) :
    Aligned (perform useTls s e) := by
  obtain ⟨op, o⟩ := e
  have hsend (cmd : Bytes) : Aligned (sendCmd o.σ (o.ctrl 0) cmd s).2 :=
    (aligned_sendCmd_lost o.σ (o.ctrl 0) ha hlost cmd).2
  cases op with
  | size path =>
    simp only [perform, size]
    split
    · exact hsend _
    · split <;> exact hsend _
  | dele path =>
    simp only [perform, dele]
    split <;> exact hsend _
  | cwd path =>
    simp only [perform, cwd]
    split <;> exact hsend _
  | list path =>
    obtain ⟨err, s₁, hb, ha₁⟩ :=
      aligned_beginTransfer_lost ha hlost useTls o (ascii "LIST") (listCmd path)
    simp only [perform, list, hb]
    exact ha₁
  | listEntries path =>
    obtain ⟨err, s₁, hb, ha₁⟩ :=
      aligned_beginTransfer_lost ha hlost useTls o (ascii "LIST") (listCmd path)
    simp only [perform, listEntries, hb]
    exact ha₁
  | retr path sink =>
    obtain ⟨err, s₁, hb, ha₁⟩ :=
      aligned_beginTransfer_lost ha hlost useTls o (ascii "RETR") (ascii "RETR " ++ path)
    simp only [perform, retr, hb]
    exact ha₁
  | stor localPath path progress =>
    obtain ⟨err, s₁, hb, ha₁⟩ :=
      aligned_beginTransfer_lost ha hlost useTls o (ascii "STOR") (ascii "STOR " ++ path)
    simp only [perform, stor]
    split
    · exact ha
    · simp only [hb]
      exact ha₁

/-- **Every reply that is returned is the reply to its command**, in every run of operations that
meet the conditions until the connection is lost. -/
theorem aligned_run {useTls : Bool} {es : List Event}
    (h : Along (step useTls) (fun s e => s.lost = true ∨ Sound useTls e) {} es) :
    Aligned (run (step useTls) {} es) := by
  have hstep (s : State) (e : Event) (hs : Aligned s ∧ (s.lost = true ∨ Idle none s))
      (he : s.lost = true ∨ Sound useTls e) :
      Aligned (step useTls s e) ∧
        ((step useTls s e).lost = true ∨ Idle none (step useTls s e)) := by
    obtain ⟨ha, hs⟩ := hs
    cases hlost : s.lost with
    | true => exact ⟨aligned_lost ha hlost e, .inl (by rw [step, hlost]; rfl)⟩
    | false =>
      have hsound : Sound useTls e := he.resolve_left (by rw [hlost]; exact Bool.false_ne_true)
      have hidle : Idle none s := hs.resolve_left (by rw [hlost]; exact Bool.false_ne_true)
      have hkept := kept_perform hsound ha hidle hlost
      refine ⟨hkept.aligned, ?_⟩
      cases hout : e.out.lost with
      | true => exact .inl (by rw [step, hout]; exact Bool.or_true _)
      | false =>
        obtain ⟨hbuf, hwire, htodo, hbusy⟩ := hkept.idle hout
        exact .inr ⟨hbuf, hwire, htodo, hbusy⟩
  have hstart : Aligned {} ∧ (({} : State).lost = true ∨ Idle none {}) :=
    ⟨(fun _ hx => by cases hx), .inr ⟨rfl, rfl, rfl, rfl⟩⟩
  exact (run_invariant hstep hstart h).1

/-! ## A download and the next command -/

/-- A reply of one line. -/
def plainReply (digits text : Bytes) (h : digits.length = 3 ∧ digits.all isDigit ∧ newline ∉ text) :
    Reply where
  digits := digits
  text := text
  more_open := List.forall_mem_nil _
  more_line := List.forall_mem_nil _
  digits_three := h.1
  digits_digit := List.all_eq_true.1 h.2.1
  text_line := h.2.2

theorem plain_227 : (ascii "227").length = 3 ∧ (ascii "227").all isDigit ∧
    newline ∉ ascii "(10,0,0,1,4,1)" := by decide

theorem plain_150 : (ascii "150").length = 3 ∧ (ascii "150").all isDigit ∧
    newline ∉ ascii "data" := by decide

theorem plain_425 : (ascii "425").length = 3 ∧ (ascii "425").all isDigit ∧
    newline ∉ ascii "no data" := by decide

theorem plain_213 : (ascii "213").length = 3 ∧ (ascii "213").all isDigit ∧
    newline ∉ ascii "3" := by decide

def opened : Reply := plainReply (ascii "227") (ascii "(10,0,0,1,4,1)") plain_227

def started : Reply := plainReply (ascii "150") (ascii "data") plain_150

def failed : Reply := plainReply (ascii "425") (ascii "no data") plain_425

def sized : Reply := plainReply (ascii "213") (ascii "3") plain_213

/-- Every transfer is taken up and fails, and every file has three bytes. -/
def respondAll (cmd : Bytes) : Response :=
  if cmd = ascii "PASV" then .final opened
  else if isTransfer cmd then .transfer started failed
  else .final sized

def serveAll : Service where
  respond := respondAll
  final_code cmd r h := by
    rw [respondAll] at h
    split at h
    · cases h
      decide
    · split at h
      · cases h
      · cases h
        decide
  preliminary_code cmd preliminary fin h := by
    rw [respondAll] at h
    split at h
    · cases h
    · split at h
      · cases h
        exact .inl (by decide)
      · cases h
  transfers cmd preliminary fin h := by
    rw [respondAll] at h
    split at h
    · cases h
    · split at h
      · assumption
      · cases h

/-- A download over a data connection with this error of the handshake, and the size of the file. -/
def downloadAndSize (tls : Option Bytes) : List Event :=
  [⟨.retr (ascii "f") (fun _ => true), { σ := serveAll, tls }⟩,
    ⟨.size (ascii "f"), { σ := serveAll }⟩]

theorem fits_serveAll (cmd : Bytes) : (serveAll.respond cmd).Fits := by
  have hopened : opened.Fits := ⟨by decide, by decide⟩
  have hstarted : started.Fits := ⟨by decide, by decide⟩
  have hfailed : failed.Fits := ⟨by decide, by decide⟩
  have hsized : sized.Fits := ⟨by decide, by decide⟩
  have hrespond : serveAll.respond cmd = respondAll cmd := rfl
  rw [hrespond, respondAll]
  split
  · exact ⟨hopened, fun _ h => by cases h⟩
  · split
    · refine ⟨hstarted, fun fin h => ?_⟩
      cases h
      exact hfailed
    · exact ⟨hsized, fun _ h => by cases h⟩

theorem aligned_downloadAndSize : Aligned (run (step true) {} (downloadAndSize none)) := by
  have hfits {e : Event} (he : e.out.σ = serveAll) : ∀ R ∈ e.responses, R.Fits := by
    intro R hR
    rw [Event.responses, he] at hR
    rcases List.mem_append.1 hR with hR | hR
    · split at hR
      · rw [List.mem_singleton.1 hR]
        exact fits_serveAll _
      · cases hR
    · rw [List.mem_singleton.1 hR]
      exact fits_serveAll _
  have hsound : ∀ e ∈ downloadAndSize none, Sound true e := by
    intro e he
    rcases List.mem_cons.1 he with rfl | he
    · refine ⟨by decide, fun _ => ⟨fun _ _ => rfl, hfits rfl, fun _ _ => ⟨fun _ => rfl, ?_⟩⟩⟩
      intro _ _ _ _ h
      cases h
    · rw [List.mem_singleton.1 he]
      exact ⟨by decide, fun _ => ⟨fun _ _ => rfl, hfits rfl, fun h => by cases h⟩⟩
  exact aligned_run ⟨.inr (hsound _ List.mem_cons_self),
    .inr (hsound _ (List.mem_cons_of_mem _ List.mem_cons_self)), trivial⟩

/-- **After a failed handshake the final reply is left**, and `SIZE` gets it. -/
theorem shifted_downloadAndSize :
    ¬ Aligned (run (step true) {} (downloadAndSize (some (ascii "handshake")))) := by
  intro h
  have hlog : ((run (step true) {} (downloadAndSize (some (ascii "handshake")))).log.map
      fun x => (x.cmd, x.stale, x.got)).head? =
      some (ascii "SIZE f", failed.bytes, some (425, ascii "425 no data")) := by decide
  rw [List.head?_map] at hlog
  obtain ⟨x, hx, heq⟩ := Option.map_eq_some_iff.1 hlog
  obtain ⟨-, hrest⟩ := Prod.mk.inj heq
  obtain ⟨hstale, hgot⟩ := Prod.mk.inj hrest
  have hanswered := h x (List.mem_of_mem_head? hx) 425 (ascii "425 no data") hgot
  rw [hstale] at hanswered
  exact absurd hanswered.1 (by decide)

end BambooNet.Ftps
