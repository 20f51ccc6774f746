import BambooNet.Lib.Crc32
import BambooNet.Zip.Complete

/-!
# Archives and the reader

**What is read.** Every entry of a conforming archive comes out as it went in, when the directory
and the entry are within the caps and the end record is the last place that looks like one. With
any file at all no read is outside a buffer, a failed call leaves the output alone, and what comes
out has the size and the checksum that were asked for (`readEntry_archive`).

**What is refused.** The directory of a conforming archive can be larger than the cap, and the end
of its end record can look, together with the comment, like another end record
(`readEntry_refuses`).
-/

namespace BambooNet.Zip

open Checked Fields

/-! ## Archives without compression -/

/-- A raw DEFLATE stream of one stored block. -/
def storedBlock (content : Bytes) : Bytes :=
  0x01 :: (leBytes 2 content.length ++ leBytes 2 (0xffff - content.length) ++ content)

def Stored (packed content : Bytes) : Prop :=
  content.length < 256 ^ 2 ∧ packed = storedBlock content

/-- What an inflater does with such streams. -/
def inflateStored (packed : Bytes) (room : ℕ) : Option Bytes :=
  let n := leNat ((packed.drop 1).take 2)
  if packed.head? = some 0x01 ∧ leNat ((packed.drop 3).take 2) = 0xffff - n ∧
      5 + n ≤ packed.length ∧ n ≤ room then
    some ((packed.drop 5).take n)
  else none

/-- The checksum of zlib, and an inflater of such streams. -/
def storedZlib : Zlib := ⟨crc32, inflateStored⟩

theorem inflates_stored : Inflates storedZlib Stored := by
  rintro packed content ⟨hlt, rfl⟩
  have hcount : leNat (((storedBlock content).drop 1).take 2) = content.length :=
    leNat_leBytes (w := 2) hlt
  have hcheck : leNat (((storedBlock content).drop 3).take 2) = 0xffff - content.length :=
    leNat_leBytes (w := 2) (by omega)
  have hcontent : (storedBlock content).drop 5 = content := rfl
  have hlen : (storedBlock content).length = 5 + content.length := by
    rw [storedBlock, List.length_cons, List.length_append, List.length_append, length_leBytes,
      length_leBytes]
    omega
  show inflateStored _ _ = _
  rw [inflateStored, hcount, hcheck, hcontent, List.take_length,
    if_pos ⟨rfl, rfl, by omega, le_refl _⟩]

/-- A member without flags, times and attributes. -/
def written (name content packed : Bytes) (method : ℕ) (extra comment : Bytes) (offset : ℕ) :
    Member :=
  ⟨name, content, packed, method, 0, 20, 20, 0, 0, 0, 0, extra, comment, [], offset⟩

theorem not_isEndRecord_of_not_mem {s : Bytes} (h : 0x50 ∉ s) : ¬ IsEndRecord s := by
  rintro ⟨hlen, hsig, -⟩
  cases s with
  | nil => exact absurd hlen (by decide)
  | cons b s =>
    have hb : b ≠ 0x50 := fun hb => h (hb ▸ List.mem_cons_self)
    apply hb
    rw [List.take_succ_cons, leNat, kEocdSig] at hsig
    have hb256 := b.toNat_lt
    apply UInt8.toNat_inj.1
    show b.toNat = 80
    omega

/-- A text has no end record inside when the first byte of the signature stands only in front. -/
theorem not_isEndRecord_of_tail {b s : Bytes} (h : 0x50 ∉ b.tail) (hs : s <:+ b)
    (hlt : s.length < b.length) : ¬ IsEndRecord s := by
  apply not_isEndRecord_of_not_mem
  intro hmem
  cases b with
  | nil => exact absurd hlt (Nat.not_lt_zero _)
  | cons c b =>
    rcases List.suffix_cons_iff.1 hs with rfl | hs
    · exact absurd hlt (lt_irrefl _)
    · exact h (hs.subset hmem)

theorem Archive.endsLast_of_comment {z : Zlib} {a : Archive} (h : a.comment = []) :
    a.EndsLast z := by
  intro s _ hlt hrec
  have hlen : (a.ending z).length = kEocdLen + a.comment.length := length_endRecord _ _ _ _
  rw [h, List.length_nil] at hlen
  have hrec := hrec.1
  omega

theorem not_isEndRecord_nil {s : Bytes} (h : s <:+ []) : ¬ IsEndRecord s := by
  rw [List.suffix_nil.1 h]
  decide

theorem conforming_written {z : Zlib} {name content packed extra comment body : Bytes}
    {method offset : ℕ}
    (hplaced : ∃ pre post, body =
      pre ++ (written name content packed method extra comment offset).localRecord z ++ post ∧
        pre.length = offset)
    (hpacked : method = 0 ∧ packed = content ∨ method = 8 ∧ Stored packed content)
    (hname : name.length < 256 ^ 2) (hextra : extra.length < 256 ^ 2)
    (hcomment : comment.length < 256 ^ 2) (hpacked_lt : packed.length < 0xffffffff)
    (hcontent_lt : content.length < 0xffffffff) :
    (written name content packed method extra comment offset).Conforming z Stored body where
  placed := hplaced
  packed := hpacked
  plain := rfl
  flags := Nat.two_pow_pos 16
  name := hname
  extra := hextra
  comment := hcomment
  localExtra := Nat.two_pow_pos 16
  packed_lt := hpacked_lt
  content_lt := hcontent_lt

/-! ## What is read -/

theorem readEntry_archive (z : Zlib) (deflates : Bytes → Bytes → Prop) :
    (Inflates z deflates → ∀ a : Archive, Conforming z deflates a →
      (a.central z).length ≤ kMaxCentralDir → a.EndsLast z → ∀ m ∈ a.members, ∀ maxSize out err,
        m.content.length ≤ maxSize → (m.method = 8 → m.packed.length ≤ kMaxPacked) →
          readEntry z (some (a.bytes z)) m.name maxSize (some out) err =
            some ⟨true, some m.content, err⟩) ∧
    ∀ file name maxSize out err, ∃ r, readEntry z file name maxSize out err = some r ∧
      (r.ok = false → r.out = out) ∧
      (r.ok = true → ∃ f data, file = some f ∧ r.out = some data ∧ data.length ≤ maxSize ∧
        ∃ e p, readEocd f = .ok e ∧
          Record ((f.drop e.cdOff).take e.cdSize) p name (z.crc32 data).toNat) := by
  constructor
  · intro hinflate a ha hcap hlast m hm maxSize out err hsize hpacked
    have hread := readContent_archive hinflate ha hcap hlast hm hsize hpacked
    unfold readEntry
    dsimp only
    rw [hread]
  · intro file name maxSize out err
    unfold readEntry
    cases out with
    | none => exact ⟨_, rfl, fun _ => rfl, fun h => absurd h Bool.false_ne_true⟩
    | some out =>
      cases file with
      | none => exact ⟨_, rfl, fun _ => rfl, fun h => absurd h Bool.false_ne_true⟩
      | some f =>
        dsimp only
        cases hread : readContent z f name maxSize with
        | error stop =>
          cases stop with
          | outside => exact absurd hread (inside_readContent name maxSize)
          | fail why => exact ⟨_, rfl, fun _ => rfl, fun h => absurd h Bool.false_ne_true⟩
        | ok data =>
          obtain ⟨hlen, hrecord⟩ := readContent_ok hread
          exact ⟨_, rfl, fun h => absurd h.symm Bool.false_ne_true,
            fun _ => ⟨f, data, rfl, rfl, hlen, hrecord⟩⟩

/-- One deflated member behind a loader. -/
def helloArchive : Archive :=
  let m := written (ascii "a") (ascii "hi") (storedBlock (ascii "hi")) 8 [] [] 2
  ⟨ascii "MZ" ++ m.localRecord storedZlib, [m], []⟩

theorem conforming_helloArchive : Conforming storedZlib Stored helloArchive where
  members := by
    intro m hm
    obtain rfl := List.mem_singleton.1 hm
    exact conforming_written ⟨ascii "MZ", [], (List.append_nil _).symm, rfl⟩
      (.inr ⟨rfl, by decide, rfl⟩) (by decide) (by decide) (by decide) (by decide) (by decide)
  names := by decide
  entries := by decide
  central := by decide +kernel
  body := by decide +kernel
  comment := by decide
  plain := fun _ => not_isEndRecord_nil

theorem readEntry_archive_hello :
    readEntry storedZlib (some (helloArchive.bytes storedZlib)) (ascii "a") 2 (some []) none =
      some ⟨true, some (ascii "hi"), none⟩ :=
  (readEntry_archive storedZlib Stored).1 inflates_stored helloArchive conforming_helloArchive
    (by decide +kernel) (Archive.endsLast_of_comment rfl) _ List.mem_cons_self 2 [] none
    (by decide) (fun _ => by decide)

/-! ## What is refused -/

def wideMember (i : ℕ) : Member :=
  written [UInt8.ofNat i] [] [] 0 (List.replicate 0xffff 0) (List.replicate 0xffff 0) (31 * i)

def wideMembers : List Member := (List.range 128).map wideMember

/-- Empty members, whose extra fields and comments make the directory larger than the cap. -/
def wideArchive : Archive := ⟨wideMembers.flatMap (Member.localRecord storedZlib), wideMembers, []⟩

theorem length_flatMap_of_const {α β : Type*} {l : List α} {g : α → List β} {n : ℕ}
    (h : ∀ a ∈ l, (g a).length = n) : (l.flatMap g).length = l.length * n := by
  have hmap : l.map (fun a => (g a).length) = l.map fun _ => n := List.map_congr_left h
  rw [List.length_flatMap, hmap, List.map_const', List.sum_replicate_nat]

theorem length_localRecord_wideMember (i : ℕ) :
    ((wideMember i).localRecord storedZlib).length = 31 := by
  rw [Member.localRecord, List.length_append, List.length_append, List.length_append,
    length_localFields]
  rfl

theorem length_centralRecord_wideMember (i : ℕ) :
    ((wideMember i).centralRecord storedZlib).length = 131117 := by
  have hextra : (wideMember i).extra.length = 0xffff := List.length_replicate
  have hcomment : (wideMember i).comment.length = 0xffff := List.length_replicate
  have hname : (wideMember i).name.length = 1 := rfl
  rw [length_centralRecord, hname, hextra, hcomment, kCentralLen]

theorem length_wideMembers : wideMembers.length = 128 := by
  rw [wideMembers, List.length_map, List.length_range]

theorem length_central_wideArchive : (wideArchive.central storedZlib).length = 16782976 := by
  have hlen : ∀ m ∈ wideMembers, (m.centralRecord storedZlib).length = 131117 := by
    intro m hm
    obtain ⟨i, -, rfl⟩ := List.mem_map.1 hm
    exact length_centralRecord_wideMember i
  rw [Archive.central, wideArchive, length_flatMap_of_const hlen, length_wideMembers]

theorem length_body_wideArchive : wideArchive.body.length = 3968 := by
  have hlen : ∀ m ∈ wideMembers, (m.localRecord storedZlib).length = 31 := by
    intro m hm
    obtain ⟨i, -, rfl⟩ := List.mem_map.1 hm
    exact length_localRecord_wideMember i
  rw [wideArchive, length_flatMap_of_const hlen, length_wideMembers]

theorem wideMember_placed {i : ℕ} (hi : i < 128) :
    ∃ pre post, wideArchive.body = pre ++ (wideMember i).localRecord storedZlib ++ post ∧
      pre.length = 31 * i := by
  have hcount : i < wideMembers.length := by rwa [length_wideMembers]
  have hget : wideMembers[i] = wideMember i := by
    simp only [wideMembers, List.getElem_map, List.getElem_range]
  have htake : wideMembers.take i = (List.range i).map wideMember := by
    rw [wideMembers, ← List.map_take, List.take_range, Nat.min_eq_left hi.le]
  have hsplit : wideMembers =
      (List.range i).map wideMember ++ wideMember i :: wideMembers.drop (i + 1) := by
    rw [← htake, ← hget, ← List.drop_eq_getElem_cons hcount, List.take_append_drop]
  have hlen : ∀ m ∈ (List.range i).map wideMember, (m.localRecord storedZlib).length = 31 := by
    intro m hm
    obtain ⟨j, -, rfl⟩ := List.mem_map.1 hm
    exact length_localRecord_wideMember j
  refine ⟨((List.range i).map wideMember).flatMap (Member.localRecord storedZlib),
    (wideMembers.drop (i + 1)).flatMap (Member.localRecord storedZlib), ?_, ?_⟩
  · rw [wideArchive, List.append_assoc, ← List.flatMap_cons, ← List.flatMap_append, ← hsplit]
  · rw [length_flatMap_of_const hlen, List.length_map, List.length_range, Nat.mul_comm]

theorem conforming_wideArchive : Conforming storedZlib Stored wideArchive where
  members := by
    intro m hm
    obtain ⟨i, hi, rfl⟩ := List.mem_map.1 hm
    have hi := List.mem_range.1 hi
    have hwide : (List.replicate 0xffff (0 : UInt8)).length < 256 ^ 2 := by
      rw [List.length_replicate]
      decide
    have hname : [UInt8.ofNat i].length < 256 ^ 2 := by
      rw [List.length_singleton]
      decide
    exact conforming_written (wideMember_placed hi) (.inl ⟨rfl, rfl⟩) hname hwide hwide
      (by decide) (by decide)
  names := by
    have hnames : wideArchive.members.map Member.name =
        (List.range 128).map fun i => [UInt8.ofNat i] := List.map_map
    rw [hnames]
    refine List.pairwise_map.2 (List.nodup_range.imp_of_mem fun {i j} hi hj hne h => hne ?_)
    rw [List.mem_range] at hi hj
    have hbyte : (UInt8.ofNat i).toNat = (UInt8.ofNat j).toNat :=
      congrArg UInt8.toNat (List.cons.inj h).1
    rwa [UInt8.toNat_ofNat', UInt8.toNat_ofNat', Nat.mod_eq_of_lt (by omega),
      Nat.mod_eq_of_lt (by omega)] at hbyte
  entries := by
    rw [wideArchive, length_wideMembers]
    decide
  central := by
    rw [length_central_wideArchive]
    decide
  body := by
    rw [length_body_wideArchive]
    decide
  comment := by decide
  plain := fun _ => not_isEndRecord_nil

theorem readEntry_of_fail {z : Zlib} {f name out why : Bytes}
    {maxSize : ℕ} (h : readContent z f name maxSize = .error (.fail why)) :
    readEntry z (some f) name maxSize (some out) none = some ⟨false, some out, none⟩ := by
  unfold readEntry
  dsimp only
  rw [h]
  rfl

theorem readContent_of_cap {z : Zlib} {f name : Bytes} {maxSize : ℕ}
    {e : Eocd} (he : readEocd f = .ok e) (hentries : e.entries < 0xffff)
    (hsize : e.cdSize < 0xffffffff) (hoff : e.cdOff < 0xffffffff)
    (hdisk : e.disk = 0 ∧ e.cdDisk = 0 ∧ e.onDisk = e.entries) (hcap : kMaxCentralDir < e.cdSize) :
    readContent z f name maxSize =
      .error (.fail (ascii "central directory out of bounds")) := by
  unfold readContent readDirectory
  rw [he, ok_bind, failIf_of_not _ (by omega), ok_bind, failIf_of_not _ (by omega), ok_bind,
    failIf_of _ (.inr hcap), fail_bind, fail_bind]

/-- The directory of an end record without entries is empty, so the name is not in it. -/
theorem readContent_of_empty {z : Zlib} {f name : Bytes} {maxSize off : ℕ}
    (he : readEocd f = .ok ⟨off, 0, 0, 0, 0, 0, 0⟩) :
    readContent z f name maxSize = .error (.fail (ascii "entry not found")) := by
  have hnone : readAt f 0 0 = some [] := if_pos rfl
  unfold readContent readDirectory
  rw [he, ok_bind]
  dsimp only
  rw [failIf_of_not _ (by decide), ok_bind, failIf_of_not _ (by decide), ok_bind,
    failIf_of_not _ (by rw [kMaxCentralDir]; omega), ok_bind, hnone, orFail_some, ok_bind, walk]

theorem readEntry_wideArchive :
    readEntry storedZlib (some (wideArchive.bytes storedZlib)) [0] 0 (some []) none =
      some ⟨false, some [], none⟩ := by
  have heocd := readEocd_archive conforming_wideArchive (Archive.endsLast_of_comment rfl)
  have hcap : kMaxCentralDir < (wideArchive.central storedZlib).length := by
    rw [length_central_wideArchive]
    decide
  exact readEntry_of_fail (readContent_of_cap heocd conforming_wideArchive.entries
    conforming_wideArchive.central conforming_wideArchive.body ⟨rfl, rfl, rfl⟩ hcap)

/-! An end record of 22 bytes whose last two, the length of the comment, start another one. -/

def echoRecord : Bytes := endRecord 0 0 0 (List.replicate 19260 0)

def echoMember : Member := written (ascii "a") (ascii "hi") (ascii "hi") 0 [] [] 0

def echoArchive : Archive := ⟨echoMember.localRecord storedZlib, [echoMember], echoRecord.drop 2⟩

theorem length_echoRecord : echoRecord.length = 19282 := by
  rw [echoRecord, length_endRecord, List.length_replicate, kEocdLen]

theorem length_comment_echoArchive : echoArchive.comment.length = 19280 := by
  rw [echoArchive, List.length_drop, length_echoRecord]

theorem echoRecord_tail : 0x50 ∉ echoRecord.tail := by
  have htail : echoRecord.tail =
      (record (endFields 0 0 0 19260)).tail ++ List.replicate 19260 0 := by
    rw [echoRecord, endRecord, List.length_replicate, List.tail_append_of_ne_nil]
    decide
  rw [htail, List.mem_append, not_or]
  constructor
  · decide
  · intro h
    exact absurd (List.eq_of_mem_replicate h) (by decide)

theorem not_mem_drop_of_tail {b : Bytes} {c : UInt8} (h : c ∉ b.tail) : c ∉ b.drop 2 := by
  rw [← List.drop_one] at h
  have hdrop : (b.drop 1).drop 1 = b.drop 2 := List.drop_drop
  rw [← hdrop]
  exact fun hmem => h (List.mem_of_mem_drop hmem)

theorem conforming_echoArchive : Conforming storedZlib Stored echoArchive where
  members := by
    intro m hm
    obtain rfl := List.mem_singleton.1 hm
    exact conforming_written ⟨[], [], (List.append_nil _).symm, rfl⟩ (.inl ⟨rfl, rfl⟩)
      (by decide) (by decide) (by decide) (by decide) (by decide)
  names := by decide
  entries := by decide
  central := by decide +kernel
  body := by decide +kernel
  comment := by
    rw [length_comment_echoArchive]
    decide
  plain := by
    intro s hs
    apply not_isEndRecord_of_not_mem
    intro hmem
    have hcomment : 0x50 ∈ echoRecord.drop 2 := hs.subset hmem
    exact not_mem_drop_of_tail echoRecord_tail hcomment

theorem endRecord_eq (entries cdSize cdOff : ℕ) (comment : Bytes) :
    [0x50, 0x4b] ++ (endRecord entries cdSize cdOff comment).drop 2 =
      endRecord entries cdSize cdOff comment := rfl

theorem record_endFields (entries cdSize cdOff comment : ℕ) :
    record (endFields entries cdSize cdOff comment) =
      record ((endFields entries cdSize cdOff comment).take 7) ++ leBytes 2 comment := by
  have hlast : leBytes 2 comment = record [(2, comment)] := (List.append_nil _).symm
  rw [hlast, ← record_append]
  rfl

/-- The archive ends with the record of an empty one. -/
theorem bytes_echoArchive : ∃ x, echoArchive.bytes storedZlib = x ++ echoRecord := by
  have hlen : leBytes 2 echoArchive.comment.length = [0x50, 0x4b] := by
    rw [length_comment_echoArchive]
    decide
  refine ⟨echoArchive.body ++ echoArchive.central storedZlib ++ record ((endFields 1
    (echoArchive.central storedZlib).length echoArchive.body.length
    echoArchive.comment.length).take 7), ?_⟩
  have hecho : [0x50, 0x4b] ++ echoArchive.comment = echoRecord := endRecord_eq _ _ _ _
  rw [← hecho, ← hlen, ← List.append_assoc, List.append_assoc _ (record _), ← record_endFields,
    List.append_assoc, List.append_assoc]
  rfl

theorem readEntry_echoArchive :
    readEntry storedZlib (some (echoArchive.bytes storedZlib)) (ascii "a") 2 (some []) none =
      some ⟨false, some [], none⟩ := by
  obtain ⟨x, hx⟩ := bytes_echoArchive
  have hzeros : (List.replicate 19260 (0 : UInt8)).length < 256 ^ 2 := by
    rw [List.length_replicate]
    decide
  have heocd : readEocd (echoArchive.bytes storedZlib) = .ok ⟨x.length, 0, 0, 0, 0, 0, 0⟩ :=
    readEocd_endRecord hx hzeros (by decide) (by decide) (by decide) fun _ =>
      not_isEndRecord_of_tail echoRecord_tail
  exact readEntry_of_fail (readContent_of_empty heocd)

/-- Both archives are conforming and their entries are small, and the reader refuses both. -/
theorem readEntry_refuses :
    Inflates storedZlib Stored ∧
    (Conforming storedZlib Stored wideArchive ∧ wideMember 0 ∈ wideArchive.members ∧
      (wideMember 0).content.length ≤ 0 ∧ (wideMember 0).packed.length ≤ kMaxPacked ∧
      readEntry storedZlib (some (wideArchive.bytes storedZlib)) (wideMember 0).name 0 (some [])
        none = some ⟨false, some [], none⟩) ∧
    (Conforming storedZlib Stored echoArchive ∧ echoMember ∈ echoArchive.members ∧
      echoMember.content.length ≤ 2 ∧ echoMember.packed.length ≤ kMaxPacked ∧
      readEntry storedZlib (some (echoArchive.bytes storedZlib)) echoMember.name 2 (some []) none =
        some ⟨false, some [], none⟩) :=
  ⟨inflates_stored,
    ⟨conforming_wideArchive, List.mem_map_of_mem (List.mem_range.2 (by decide)), by decide,
      by decide, readEntry_wideArchive⟩,
    ⟨conforming_echoArchive, List.mem_singleton_self _, by decide, by decide,
      readEntry_echoArchive⟩⟩

end BambooNet.Zip
