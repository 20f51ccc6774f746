import BambooNet.Lib.Fields
import BambooNet.Zip.Bounds

/-!
# Archives

What a writer puts into a file that is on one disk and has no ZIP64 records: local records with the
data, in any order and with anything between them, then the central directory, then the end record
with the comment of the archive. Sizes and checksums may be left out of a local header when a data
descriptor follows the data. A field at its largest value refers to a ZIP64 record, so no count,
size or offset has it here.
-/

namespace BambooNet.Zip

open Checked Fields

structure Member where
  name : Bytes
  content : Bytes
  /-- The content as it is stored in the archive. -/
  packed : Bytes
  method : ℕ
  flags : ℕ
  madeBy : ℕ
  needed : ℕ
  time : ℕ
  date : ℕ
  internal : ℕ
  external : ℕ
  extra : Bytes
  comment : Bytes
  localExtra : Bytes
  /-- Where the local record starts. -/
  offset : ℕ

namespace Member

variable (z : Zlib)

def centralFields (m : Member) : List (ℕ × ℕ) :=
  [(4, kCentralSig), (2, m.madeBy), (2, m.needed), (2, m.flags), (2, m.method), (2, m.time),
    (2, m.date), (4, (z.crc32 m.content).toNat), (4, m.packed.length), (4, m.content.length),
    (2, m.name.length), (2, m.extra.length), (2, m.comment.length), (2, 0), (2, m.internal),
    (4, m.external), (4, m.offset)]

def centralRecord (m : Member) : Bytes :=
  record (m.centralFields z) ++ m.name ++ m.extra ++ m.comment

/-- Bit 3 of the flags: a data descriptor follows the data. -/
def streamed (m : Member) : Bool := m.flags.testBit 3

def localFields (m : Member) : List (ℕ × ℕ) :=
  [(4, kLocalSig), (2, m.needed), (2, m.flags), (2, m.method), (2, m.time), (2, m.date),
    (4, if m.streamed then 0 else (z.crc32 m.content).toNat),
    (4, if m.streamed then 0 else m.packed.length),
    (4, if m.streamed then 0 else m.content.length), (2, m.name.length), (2, m.localExtra.length)]

/-- The local header and the data. -/
def localRecord (m : Member) : Bytes :=
  record (m.localFields z) ++ m.name ++ m.localExtra ++ m.packed

end Member

def endFields (entries cdSize cdOff comment : ℕ) : List (ℕ × ℕ) :=
  [(4, kEocdSig), (2, 0), (2, 0), (2, entries), (2, entries), (4, cdSize), (4, cdOff),
    (2, comment)]

def endRecord (entries cdSize cdOff : ℕ) (comment : Bytes) : Bytes :=
  record (endFields entries cdSize cdOff comment.length) ++ comment

structure Archive where
  /-- The local records, and what stands before, between and behind them. -/
  body : Bytes
  /-- In the order of the directory. -/
  members : List Member
  comment : Bytes

namespace Archive

variable (z : Zlib)

def central (a : Archive) : Bytes := a.members.flatMap (Member.centralRecord z)

def ending (a : Archive) : Bytes :=
  endRecord a.members.length (a.central z).length a.body.length a.comment

def bytes (a : Archive) : Bytes := a.body ++ a.central z ++ a.ending z

end Archive

/-- A member as writers write it: stored or deflated and not encrypted. -/
structure Member.Conforming (z : Zlib) (deflates : Bytes → Bytes → Prop) (body : Bytes)
    (m : Member) : Prop where
  placed : ∃ pre post, body = pre ++ m.localRecord z ++ post ∧ pre.length = m.offset
  packed : m.method = 0 ∧ m.packed = m.content ∨ m.method = 8 ∧ deflates m.packed m.content
  plain : m.flags % 2 = 0
  flags : m.flags < 256 ^ 2
  name : m.name.length < 256 ^ 2
  extra : m.extra.length < 256 ^ 2
  comment : m.comment.length < 256 ^ 2
  localExtra : m.localExtra.length < 256 ^ 2
  packed_lt : m.packed.length < 0xffffffff
  content_lt : m.content.length < 0xffffffff

/-- An archive of a conforming writer. `deflates` relates a raw DEFLATE stream to its content. -/
structure Conforming (z : Zlib) (deflates : Bytes → Bytes → Prop) (a : Archive) : Prop where
  members : ∀ m ∈ a.members, m.Conforming z deflates a.body
  names : (a.members.map Member.name).Nodup
  entries : a.members.length < 0xffff
  central : (a.central z).length < 0xffffffff
  body : a.body.length < 0xffffffff
  comment : a.comment.length < 256 ^ 2
  /-- No suffix of the comment is an end record itself. -/
  plain : ∀ s, s <:+ a.comment → ¬ IsEndRecord s

/-! ## Reading the fields -/

/-- A field of a record whose widths are known, behind `pre`. -/
theorem readLe_field {fields : List (ℕ × ℕ)} {widths : List ℕ} {k w n off : ℕ} {buf : Bytes}
    (hwidths : fields.map Prod.fst = widths) (h : fields[k]? = some (w, n)) (hn : n < 256 ^ w)
    (hoff : (widths.take k).sum = off) (pre post : Bytes)
    (hbuf : buf = pre ++ record fields ++ post) :
    (readLe w buf (pre.length + off) : Step ℕ) = .ok n := by
  have hwidth : width (fields.take k) = off := by rw [width, List.map_take, hwidths, hoff]
  rw [hbuf, ← hwidth, readLe_eq (readBytes_field h pre post), leNat_leBytes hn]

def endWidths : List ℕ := [4, 2, 2, 2, 2, 4, 4, 2]

theorem map_endFields (entries cdSize cdOff comment : ℕ) :
    (endFields entries cdSize cdOff comment).map Prod.fst = endWidths := rfl

theorem length_endRecord (entries cdSize cdOff : ℕ) (comment : Bytes) :
    (endRecord entries cdSize cdOff comment).length = kEocdLen + comment.length := by
  rw [endRecord, List.length_append, length_record]
  rfl

theorem isEndRecord_endRecord (entries cdSize cdOff : ℕ) {comment : Bytes}
    (h : comment.length < 256 ^ 2) : IsEndRecord (endRecord entries cdSize cdOff comment) := by
  have hlen := length_endRecord entries cdSize cdOff comment
  have hfield {k w n off : ℕ}
      (hk : (endFields entries cdSize cdOff comment.length)[k]? = some (w, n))
      (hn : n < 256 ^ w) (hoff : (endWidths.take k).sum = off) (hle : off + w ≤ kEocdLen) :
      leNat (((endRecord entries cdSize cdOff comment).drop off).take w) = n := by
    have hread := readLe_field (map_endFields _ _ _ _) hk hn hoff [] comment rfl
    rw [List.nil_append, ← endRecord, List.length_nil, Nat.zero_add,
      readLe_of_le (by omega)] at hread
    exact Except.ok.inj hread
  have hsig : leNat (((endRecord entries cdSize cdOff comment).drop 0).take 4) = kEocdSig :=
    hfield (k := 0) rfl (by decide) rfl (by decide)
  have hcount : leNat (((endRecord entries cdSize cdOff comment).drop 20).take 2) =
      comment.length :=
    hfield (k := 7) rfl h rfl (by decide)
  exact ⟨by omega, hsig, by rw [hcount, hlen]⟩

/-- The end record is found when no later place looks like one. -/
theorem readEocd_endRecord {f x comment : Bytes} {entries cdSize cdOff : ℕ}
    (hf : f = x ++ endRecord entries cdSize cdOff comment) (hcomment : comment.length < 256 ^ 2)
    (hentries : entries < 256 ^ 2) (hsize : cdSize < 256 ^ 4) (hoff : cdOff < 256 ^ 4)
    (hlast : ∀ s, s <:+ endRecord entries cdSize cdOff comment →
      s.length < (endRecord entries cdSize cdOff comment).length → ¬ IsEndRecord s) :
    readEocd f = .ok ⟨x.length, 0, 0, entries, entries, cdSize, cdOff⟩ := by
  have hlen := length_endRecord entries cdSize cdOff comment
  have hrec := isEndRecord_endRecord entries cdSize cdOff hcomment
  have hflen : f.length = x.length + (kEocdLen + comment.length) := by
    rw [hf, List.length_append, hlen]
  have hmax : kEocdLen + comment.length ≤ kEocdLen + kMaxComment := by
    rw [kMaxComment]
    omega
  -- what is read of the file is the end record and what stands before it
  obtain ⟨tailLen, htailLen⟩ : ∃ n, n = min f.length (kEocdLen + kMaxComment) := ⟨_, rfl⟩
  obtain ⟨y, hy⟩ : ∃ y, y = x.drop (f.length - tailLen) := ⟨_, rfl⟩
  have hylen : y.length + (kEocdLen + comment.length) = tailLen := by
    rw [hy, List.length_drop]
    omega
  have htail : readAt f (f.length - tailLen) tailLen =
      some (y ++ endRecord entries cdSize cdOff comment) := by
    have hdrop : f.drop (f.length - tailLen) = y ++ endRecord entries cdSize cdOff comment := by
      rw [hy, ← List.drop_append_of_le_length (by omega), hf]
    rw [readAt, if_neg (by rw [kEocdLen] at hylen; omega), readBytes_of_le (by omega), hdrop,
      List.take_of_length_le]
    rw [List.length_append, hlen]
    omega
  have hfound : findEocd (y ++ endRecord entries cdSize cdOff comment) (tailLen - kEocdLen + 1) =
      .ok (some y.length) := by
    have htotal : (y ++ endRecord entries cdSize cdOff comment).length = tailLen := by
      rw [List.length_append, hlen, hylen]
    apply findEocd_eq
    · omega
    · omega
    · rw [List.drop_left]
      exact hrec
    · intro j hj hjn
      rw [List.drop_append, List.drop_eq_nil_of_le (by omega), List.nil_append]
      apply hlast _ (List.drop_suffix _ _)
      rw [List.length_drop]
      omega
  have hfield {k w n off : ℕ}
      (hk : (endFields entries cdSize cdOff comment.length)[k]? = some (w, n))
      (hn : n < 256 ^ w) (hoff : (endWidths.take k).sum = off) :
      (readLe w (y ++ endRecord entries cdSize cdOff comment) (y.length + off) : Step ℕ) =
        .ok n :=
    readLe_field (map_endFields _ _ _ _) hk hn hoff y comment (List.append_assoc _ _ _).symm
  unfold readEocd
  rw [failIf_of_not _ (by omega), ok_bind]
  dsimp only
  rw [← htailLen, htail, orFail_some, ok_bind, hfound, ok_bind, orFail_some, ok_bind]
  have hdisk : le16 (y ++ endRecord entries cdSize cdOff comment) (y.length + 4) = .ok 0 :=
    hfield (k := 1) rfl (by decide) rfl
  have hcdDisk : le16 (y ++ endRecord entries cdSize cdOff comment) (y.length + 6) = .ok 0 :=
    hfield (k := 2) rfl (by decide) rfl
  have honDisk : le16 (y ++ endRecord entries cdSize cdOff comment) (y.length + 8) = .ok entries :=
    hfield (k := 3) rfl hentries rfl
  have hcount : le16 (y ++ endRecord entries cdSize cdOff comment) (y.length + 10) = .ok entries :=
    hfield (k := 4) rfl hentries rfl
  have hcdSize : le32 (y ++ endRecord entries cdSize cdOff comment) (y.length + 12) = .ok cdSize :=
    hfield (k := 5) rfl hsize rfl
  have hcdOff : le32 (y ++ endRecord entries cdSize cdOff comment) (y.length + 16) = .ok cdOff :=
    hfield (k := 6) rfl hoff rfl
  rw [hdisk, ok_bind, hcdDisk, ok_bind, honDisk, ok_bind, hcount, ok_bind, hcdSize, ok_bind,
    hcdOff, ok_bind, (by omega : f.length - tailLen + y.length = x.length)]

end BambooNet.Zip
