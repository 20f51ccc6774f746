import BambooNet.Zip.Format

/-!
# The entries of an archive are found

**The directory.** Each record is read as it was written (`readCentral_member`), so the walk comes
to the record of the name (`walk_members`).

**The data.** It is behind the local header, whose name and extra field have lengths of their own
(`dataOffset_member`), and it lies before the directory.
-/

namespace BambooNet.Zip

open Checked Fields

variable {deflates : Bytes → Bytes → Prop} {z : Zlib}
  {body cd f name pre post : Bytes} {m : Member} {maxSize : ℕ}

theorem readAt_middle (a b c : Bytes) : readAt (a ++ b ++ c) a.length b.length = some b := by
  rw [readAt]
  split
  · next h => rw [List.eq_nil_of_length_eq_zero h]
  · exact readBytes_middle a b c

/-! ## The directory -/

theorem readDirectory_archive {central ending : Bytes} {entries : ℕ}
    (hf : f = body ++ central ++ ending) (hentries : entries < 0xffff)
    (hcentral : central.length < 0xffffffff) (hbody : body.length < 0xffffffff)
    (hcap : central.length ≤ kMaxCentralDir) :
    readDirectory f
      ⟨(body ++ central).length, 0, 0, entries, entries, central.length, body.length⟩ =
        .ok central := by
  have hlen : (body ++ central).length = body.length + central.length := List.length_append
  unfold readDirectory
  dsimp only
  rw [failIf_of_not _ (by omega), ok_bind, failIf_of_not _ (by omega), ok_bind,
    failIf_of_not _ (by omega), ok_bind, hf, readAt_middle, orFail_some]

def centralWidths : List ℕ := [4, 2, 2, 2, 2, 2, 2, 4, 4, 4, 2, 2, 2, 2, 2, 4, 4]

theorem map_centralFields (z : Zlib) (m : Member) :
    (m.centralFields z).map Prod.fst = centralWidths := rfl

theorem width_centralFields (z : Zlib) (m : Member) : width (m.centralFields z) = kCentralLen := by
  rw [width, map_centralFields]
  rfl

theorem length_centralRecord (z : Zlib) (m : Member) :
    (m.centralRecord z).length =
      kCentralLen + m.name.length + m.extra.length + m.comment.length := by
  rw [Member.centralRecord, List.length_append, List.length_append, List.length_append,
    length_record, width_centralFields]

/-- What the reader finds in the record of a member when it looks for `name`. -/
def Member.entry (z : Zlib) (m : Member) (name : Bytes) : Central :=
  ⟨m.flags, m.method, (z.crc32 m.content).toNat, m.packed.length, m.content.length, m.offset,
    (m.centralRecord z).length, m.name == name⟩

theorem isHit_member (hcd : cd = pre ++ m.centralRecord z ++ post) :
    isHit cd pre.length m.name.length name = .ok (m.name == name) := by
  rw [isHit]
  split
  · have hread := readBytes_middle (pre ++ record (m.centralFields z)) m.name
      (m.extra ++ m.comment ++ post)
    have hbuf : pre ++ record (m.centralFields z) ++ m.name ++ (m.extra ++ m.comment ++ post) =
        cd := by
      rw [hcd, Member.centralRecord]
      simp only [List.append_assoc]
    have hoff : (pre ++ record (m.centralFields z)).length = pre.length + kCentralLen := by
      rw [List.length_append, length_record, width_centralFields]
    rw [hbuf, hoff] at hread
    rw [readSlice, hread]
    rfl
  · next hne =>
    have hname : m.name ≠ name := fun h => hne (congrArg List.length h)
    rw [beq_false_of_ne hname]

theorem Member.Conforming.offset_lt (h : m.Conforming z deflates body)
    (hbody : body.length < 0xffffffff) : m.offset < 0xffffffff := by
  obtain ⟨a, b, hplaced, hoff⟩ := h.placed
  rw [hplaced, List.length_append, List.length_append] at hbody
  omega

/-- A field of the record of a member, at its place in the directory. -/
theorem readLe_centralField {k w n off : ℕ} (hk : (m.centralFields z)[k]? = some (w, n))
    (hn : n < 256 ^ w) (hoff : (centralWidths.take k).sum = off)
    (hcd : cd = pre ++ m.centralRecord z ++ post) :
    (readLe w cd (pre.length + off) : Step ℕ) = .ok n := by
  have hbuf : cd =
      pre ++ record (m.centralFields z) ++ (m.name ++ m.extra ++ m.comment ++ post) := by
    rw [hcd, Member.centralRecord]
    simp only [List.append_assoc]
  exact readLe_field (map_centralFields z m) hk hn hoff pre _ hbuf

theorem Member.Conforming.method_lt (h : m.Conforming z deflates body) : m.method < 256 ^ 2 := by
  rcases h.packed with ⟨h0, -⟩ | ⟨h8, -⟩
  · omega
  · omega

theorem readCentral_member (h : m.Conforming z deflates body) (hbody : body.length < 0xffffffff)
    (hcd : cd = pre ++ m.centralRecord z ++ post) (hlt : cd.length < 2 ^ 64) :
    readCentral cd pre.length name = .ok (m.entry z name) := by
  have hlen : cd.length = pre.length + (m.centralRecord z).length + post.length := by
    rw [hcd, List.length_append, List.length_append]
  have hrecord := length_centralRecord z m
  have hoffset := h.offset_lt hbody
  have hpacked := h.packed_lt
  have hcontent := h.content_lt
  have hsig : le32 cd pre.length = .ok kCentralSig :=
    readLe_centralField (k := 0) rfl (by decide) rfl hcd
  have hflags : le16 cd (pre.length + 8) = .ok m.flags :=
    readLe_centralField (k := 3) rfl h.flags rfl hcd
  have hmethod : le16 cd (pre.length + 10) = .ok m.method :=
    readLe_centralField (k := 4) rfl h.method_lt rfl hcd
  have hcrc : le32 cd (pre.length + 16) = .ok (z.crc32 m.content).toNat :=
    readLe_centralField (k := 7) rfl (UInt32.toNat_lt _) rfl hcd
  have hcsize : le32 cd (pre.length + 20) = .ok m.packed.length :=
    readLe_centralField (k := 8) rfl (by omega) rfl hcd
  have husize : le32 cd (pre.length + 24) = .ok m.content.length :=
    readLe_centralField (k := 9) rfl (by omega) rfl hcd
  have hnlen : le16 cd (pre.length + 28) = .ok m.name.length :=
    readLe_centralField (k := 10) rfl h.name rfl hcd
  have hxlen : le16 cd (pre.length + 30) = .ok m.extra.length :=
    readLe_centralField (k := 11) rfl h.extra rfl hcd
  have hclen : le16 cd (pre.length + 32) = .ok m.comment.length :=
    readLe_centralField (k := 12) rfl h.comment rfl hcd
  have hloff : le32 cd (pre.length + 42) = .ok m.offset :=
    readLe_centralField (k := 16) rfl (by omega) rfl hcd
  unfold readCentral
  rw [sizeSub_of_le (by omega) hlt, failIf_of_not _ (by omega), ok_bind, hsig, ok_bind,
    failIf_of_not _ (not_not.2 rfl), ok_bind, hflags, ok_bind, hmethod, ok_bind, hcrc, ok_bind,
    hcsize, ok_bind, husize, ok_bind, hnlen, ok_bind, hxlen, ok_bind, hclen, ok_bind, hloff,
    ok_bind]
  dsimp only
  rw [failIf_of_not _ (by omega), ok_bind, isHit_member hcd, ok_bind, Member.entry, hrecord]

/-- The walk passes the records of other names and stops at the one of `m`. -/
theorem walk_members {ms : List Member} {cdOff : ℕ} (hms : ∀ x ∈ ms, x.Conforming z deflates body)
    (hnames : (ms.map Member.name).Nodup) (hbody : body.length < 0xffffffff)
    (hcd : cd = pre ++ ms.flatMap (Member.centralRecord z)) (hlt : cd.length < 2 ^ 64)
    (hm : m ∈ ms) :
    walk z f cd cdOff m.name maxSize ms.length pre.length =
      extract z f cdOff maxSize (m.entry z m.name) := by
  induction ms generalizing pre with
  | nil => cases hm
  | cons x ms ih =>
    rw [List.flatMap_cons, ← List.append_assoc] at hcd
    have hread : readCentral cd pre.length m.name = .ok (x.entry z m.name) :=
      readCentral_member (hms x List.mem_cons_self) hbody hcd hlt
    rw [List.length_cons, walk, hread, ok_bind]
    rw [List.map_cons, List.nodup_cons] at hnames
    by_cases hx : x.name = m.name
    · have hxm : m = x := by
        rcases List.mem_cons.1 hm with h | h
        · exact h
        · exact absurd (hx ▸ List.mem_map_of_mem h) hnames.1
      subst hxm
      rw [if_pos]
      exact beq_self_eq_true m.name
    · have hmem : m ∈ ms := by
        rcases List.mem_cons.1 hm with rfl | h
        · exact absurd rfl hx
        · exact h
      have hnext : pre.length + (x.entry z m.name).len = (pre ++ x.centralRecord z).length :=
        List.length_append.symm
      rw [if_neg, hnext]
      · exact ih (fun y hy => hms y (List.mem_cons_of_mem x hy)) hnames.2 hcd hmem
      · rw [Member.entry, beq_false_of_ne hx]
        exact Bool.false_ne_true

/-! ## The data -/

def localWidths : List ℕ := [4, 2, 2, 2, 2, 2, 4, 4, 4, 2, 2]

theorem map_localFields (z : Zlib) (m : Member) :
    (m.localFields z).map Prod.fst = localWidths := rfl

theorem length_localFields (z : Zlib) (m : Member) :
    (record (m.localFields z)).length = kLocalLen := by
  rw [length_record, width, map_localFields]
  rfl

/-- The data of `m` is behind the lengths that its local header gives. -/
theorem dataOffset_member (hname : m.name.length < 256 ^ 2) (hextra : m.localExtra.length < 256 ^ 2)
    (hf : f = pre ++ m.localRecord z ++ post) :
    dataOffset f pre.length =
      .ok (pre ++ record (m.localFields z) ++ m.name ++ m.localExtra).length := by
  have hheader := readAt_middle pre (record (m.localFields z))
    (m.name ++ m.localExtra ++ m.packed ++ post)
  have hbuf : pre ++ record (m.localFields z) ++ (m.name ++ m.localExtra ++ m.packed ++ post) =
      f := by
    rw [hf, Member.localRecord]
    simp only [List.append_assoc]
  rw [hbuf, length_localFields] at hheader
  have hself : record (m.localFields z) = [] ++ record (m.localFields z) ++ [] := by
    rw [List.nil_append, List.append_nil]
  have hsig : le32 (record (m.localFields z)) 0 = .ok kLocalSig :=
    readLe_field (k := 0) (map_localFields z m) rfl (by decide) rfl [] [] hself
  have hnlen : le16 (record (m.localFields z)) 26 = .ok m.name.length :=
    readLe_field (k := 9) (map_localFields z m) rfl hname rfl [] [] hself
  have hxlen : le16 (record (m.localFields z)) 28 = .ok m.localExtra.length :=
    readLe_field (k := 10) (map_localFields z m) rfl hextra rfl [] [] hself
  unfold dataOffset
  rw [hheader, orFail_some, ok_bind, hsig, ok_bind, failIf_of_not _ (not_not.2 rfl), ok_bind,
    hnlen, ok_bind, hxlen, ok_bind, List.length_append, List.length_append, List.length_append,
    length_localFields]

/-- What `inflate` has to do with the streams that writers make: it unpacks them when it is given
the room. -/
def Inflates (z : Zlib) (deflates : Bytes → Bytes → Prop) : Prop :=
  ∀ packed content, deflates packed content → z.inflate packed content.length = some content

theorem unpack_member (hinflate : Inflates z deflates) (h : m.Conforming z deflates body) :
    unpack z m.packed (m.entry z name) = .ok m.content := by
  rw [unpack, Member.entry]
  dsimp only
  rcases h.packed with ⟨hmethod, hstored⟩ | ⟨hmethod, hdeflated⟩
  · rw [if_pos hmethod, hstored]
  · have hraw : inflateRaw z m.packed m.content.length = some m.content := by
      rw [inflateRaw, hinflate _ _ hdeflated]
      exact if_pos rfl
    rw [if_neg (by omega), hraw, orFail_some]

theorem extract_member (hinflate : Inflates z deflates) (h : m.Conforming z deflates body)
    (hf : f = body ++ post) (hbody : body.length < 0xffffffff) (hsize : m.content.length ≤ maxSize)
    (hcap : m.method = 8 → m.packed.length ≤ kMaxPacked) :
    extract z f body.length maxSize (m.entry z name) = .ok m.content := by
  obtain ⟨before, behind, hplaced, hoffset⟩ := h.placed
  have hplain : ¬ m.flags &&& 1 ≠ 0 := by
    rw [Nat.and_one_is_mod, h.plain]
    exact not_not.2 rfl
  have hmethod : ¬ (m.method ≠ 0 ∧ m.method ≠ 8) := by
    rcases h.packed with ⟨h0, -⟩ | ⟨h8, -⟩
    · exact fun hne => hne.1 h0
    · exact fun hne => hne.2 h8
  have hsizes : ¬ if m.method = 0 then m.packed.length ≠ m.content.length
      else m.packed.length > kMaxPacked := by
    rcases h.packed with ⟨h0, hstored⟩ | ⟨h8, -⟩
    · rw [if_pos h0, hstored]
      exact not_not.2 rfl
    · rw [if_neg (by omega)]
      exact not_lt.2 (hcap h8)
  have hlocal : f = before ++ m.localRecord z ++ (behind ++ post) := by
    rw [hf, hplaced]
    simp only [List.append_assoc]
  have hoff := dataOffset_member h.name h.localExtra hlocal
  rw [hoffset] at hoff
  have hdata := readAt_middle (before ++ record (m.localFields z) ++ m.name ++ m.localExtra)
    m.packed (behind ++ post)
  have hbuf : before ++ record (m.localFields z) ++ m.name ++ m.localExtra ++ m.packed ++
      (behind ++ post) = f := by
    rw [hlocal, Member.localRecord]
    simp only [List.append_assoc]
  rw [hbuf] at hdata
  -- the data ends inside the body, so before the directory
  have hends : (before ++ record (m.localFields z) ++ m.name ++ m.localExtra).length +
      m.packed.length ≤ body.length := by
    rw [hplaced, Member.localRecord]
    simp only [List.length_append]
    omega
  have hlt := h.offset_lt hbody
  have hpacked := h.packed_lt
  have hcontent := h.content_lt
  have hunpack : unpack z m.packed (m.entry z name) = .ok m.content :=
    unpack_member hinflate h
  unfold extract
  rw [Member.entry] at hunpack
  rw [Member.entry]
  dsimp only
  rw [failIf_of_not _ hplain, ok_bind, failIf_of_not _ (by omega), ok_bind,
    failIf_of_not _ (by omega), ok_bind, failIf_of_not _ hmethod, ok_bind,
    failIf_of_not _ hsizes, ok_bind, hoff, ok_bind, failIf_of_not _ (by omega), ok_bind,
    hdata, orFail_some, ok_bind, hunpack, ok_bind, failIf_of_not _ (not_not.2 rfl), ok_bind]

/-! ## The whole call -/

/-- Where the reader looks first, the end record is the one of the archive. -/
def Archive.EndsLast (z : Zlib) (a : Archive) : Prop :=
  ∀ s, s <:+ (a.ending z) → s.length < (a.ending z).length → ¬ IsEndRecord s

theorem readEocd_archive {a : Archive} (h : Conforming z deflates a) (hlast : a.EndsLast z) :
    readEocd (a.bytes z) = .ok ⟨(a.body ++ a.central z).length, 0, 0, a.members.length,
      a.members.length, (a.central z).length, a.body.length⟩ := by
  have hentries := h.entries
  have hcentral := h.central
  have hbody := h.body
  exact readEocd_endRecord rfl h.comment (by omega) (by omega) (by omega) hlast

theorem readContent_archive {a : Archive} (hinflate : Inflates z deflates)
    (h : Conforming z deflates a) (hcap : (a.central z).length ≤ kMaxCentralDir)
    (hlast : a.EndsLast z) (hm : m ∈ a.members) (hsize : m.content.length ≤ maxSize)
    (hpacked : m.method = 8 → m.packed.length ≤ kMaxPacked) :
    readContent z (a.bytes z) m.name maxSize = .ok m.content := by
  have hdirectory : readDirectory (a.bytes z) ⟨(a.body ++ a.central z).length, 0, 0,
      a.members.length, a.members.length, (a.central z).length, a.body.length⟩ =
        .ok (a.central z) :=
    readDirectory_archive rfl h.entries h.central h.body hcap
  have hlt : (a.central z).length < 2 ^ 64 := lt_trans h.central (by decide)
  have hwalk : walk z (a.bytes z) (a.central z) a.body.length m.name maxSize a.members.length 0 =
      extract z (a.bytes z) a.body.length maxSize (m.entry z m.name) :=
    walk_members h.members h.names h.body (List.nil_append _).symm hlt hm
  have hextract : extract z (a.bytes z) a.body.length maxSize (m.entry z m.name) = .ok m.content :=
    extract_member hinflate (h.members m hm) (List.append_assoc _ _ _) h.body hsize hpacked
  unfold readContent
  rw [readEocd_archive h hlast, ok_bind, hdirectory, ok_bind]
  exact hwalk.trans hextract

end BambooNet.Zip
