import BambooNet.Zip.ReadEntry

/-!
# What the reader does with any file

Every read is inside its buffer (`inside_readContent`): the search stays where a whole record fits,
and the walk stays at or before the end of the directory. What comes out has the size and the
checksum of its record in the directory (`readContent_ok`).
-/

namespace BambooNet.Zip

open Checked

/-! ## The search -/

/-- A text that starts as an end record and has just the length that its comment says. -/
def IsEndRecord (s : Bytes) : Prop :=
  kEocdLen ≤ s.length ∧ leNat (s.take 4) = kEocdSig ∧
    kEocdLen + leNat ((s.drop 20).take 2) = s.length

instance decidableIsEndRecord (s : Bytes) : Decidable (IsEndRecord s) := by
  unfold IsEndRecord
  infer_instance

theorem findEocd_succ {tail : Bytes} {i : ℕ} (h : i + kEocdLen ≤ tail.length) :
    findEocd tail (i + 1) =
      if IsEndRecord (tail.drop i) then .ok (some i) else findEocd tail i := by
  have hlen : kEocdLen ≤ (tail.drop i).length := by
    rw [List.length_drop]
    omega
  have h4 : i + 4 ≤ tail.length := by
    rw [kEocdLen] at h
    omega
  have h2 : i + 20 + 2 ≤ tail.length := h
  have hcomment : (tail.drop (i + 20)).take 2 = ((tail.drop i).drop 20).take 2 := by
    rw [List.drop_drop]
  rw [findEocd, le32, le16, readLe_of_le h4, readLe_of_le h2, ok_bind, ok_bind, hcomment]
  by_cases hsig : leNat ((tail.drop i).take 4) = kEocdSig
  · rw [if_pos hsig]
    by_cases hend : i + kEocdLen + leNat (((tail.drop i).drop 20).take 2) = tail.length
    · rw [if_pos hend, if_pos]
      refine ⟨hlen, hsig, ?_⟩
      rw [List.length_drop]
      omega
    · rw [if_neg hend, if_neg]
      rintro ⟨-, -, heq⟩
      rw [List.length_drop] at heq
      omega
  · rw [if_neg hsig, if_neg]
    exact fun hrec => hsig hrec.2.1

theorem findEocd_ok {tail : Bytes} {n : ℕ} (h : n + kEocdLen ≤ tail.length + 1) :
    ∃ r, findEocd tail n = .ok r ∧ ∀ i, r = some i → i + kEocdLen ≤ tail.length := by
  induction n with
  | zero =>
    refine ⟨none, rfl, ?_⟩
    intro i hi
    cases hi
  | succ n ih =>
    have hn : n + kEocdLen ≤ tail.length := by omega
    rw [findEocd_succ hn]
    split
    · refine ⟨some n, rfl, ?_⟩
      intro i hi
      obtain rfl := Option.some.inj hi
      exact hn
    · exact ih (by omega)

/-- The search finds the last record. -/
theorem findEocd_eq {tail : Bytes} {i n : ℕ} (h : n + kEocdLen ≤ tail.length + 1) (hi : i < n)
    (hrec : IsEndRecord (tail.drop i))
    (hlast : ∀ j, i < j → j < n → ¬ IsEndRecord (tail.drop j)) :
    findEocd tail n = .ok (some i) := by
  induction n with
  | zero => omega
  | succ n ih =>
    rw [findEocd_succ (by omega)]
    by_cases heq : i = n
    · rw [← heq, if_pos hrec]
    · rw [if_neg (hlast n (by omega) (by omega))]
      exact ih (by omega) (by omega) fun j hij hjn => hlast j hij (by omega)

theorem length_readAt {f b : Bytes} {off n : ℕ} (h : readAt f off n = some b) : b.length = n := by
  rw [readAt] at h
  split at h
  · next hn =>
    cases h
    exact hn.symm
  · rw [readBytes] at h
    split_ifs at h with hle
    cases h
    rw [List.length_take, List.length_drop]
    omega

theorem inside_readEocd (f : Bytes) : Inside (readEocd f) := by
  unfold readEocd
  refine (inside_failIf _).bind fun _ hlen => ?_
  have hlen := failIf_eq_ok.1 hlen
  dsimp only
  refine (inside_orFail _ _).bind fun tail htail => ?_
  have htail := length_readAt (orFail_eq_ok.1 htail)
  have hbound : min f.length (kEocdLen + kMaxComment) - kEocdLen + 1 + kEocdLen ≤
      tail.length + 1 := by
    rw [htail]
    omega
  obtain ⟨r, hr, hfit⟩ := findEocd_ok hbound
  rw [hr, ok_bind]
  refine (inside_orFail _ _).bind fun e he => ?_
  have hfit := hfit e (orFail_eq_ok.1 he)
  rw [kEocdLen] at hfit
  refine (inside_readLe (by omega)).bind fun _ _ => ?_
  refine (inside_readLe (by omega)).bind fun _ _ => ?_
  refine (inside_readLe (by omega)).bind fun _ _ => ?_
  refine (inside_readLe (by omega)).bind fun _ _ => ?_
  refine (inside_readLe (by omega)).bind fun _ _ => ?_
  refine (inside_readLe (by omega)).bind fun _ _ => ?_
  exact inside_ok _

theorem inside_readDirectory (f : Bytes) (e : Eocd) : Inside (readDirectory f e) := by
  unfold readDirectory
  refine (inside_failIf _).bind fun _ _ => ?_
  refine (inside_failIf _).bind fun _ _ => ?_
  refine (inside_failIf _).bind fun _ _ => ?_
  exact inside_orFail _ _

/-! ## The directory -/

theorem sizeSub_of_le {a b : ℕ} (h : b ≤ a) (ha : a < 2 ^ 64) : sizeSub a b = a - b := by
  rw [sizeSub, (by omega : a + 2 ^ 64 - b = (a - b) + 2 ^ 64), Nat.add_mod_right,
    Nat.mod_eq_of_lt (by omega)]

/-- What the bytes at `pos` of the directory say of the entry `name`. -/
structure Record (cd : Bytes) (pos : ℕ) (name : Bytes) (crc : ℕ) : Prop where
  fits : pos + kCentralLen + name.length ≤ cd.length
  sig : leNat ((cd.drop pos).take 4) = kCentralSig
  nlen : leNat ((cd.drop (pos + 28)).take 2) = name.length
  stored : (cd.drop (pos + kCentralLen)).take name.length = name
  crc : leNat ((cd.drop (pos + 16)).take 4) = crc

variable {cd name : Bytes} {pos : ℕ}

theorem inside_readCentral (hpos : pos ≤ cd.length) (hcd : cd.length < 2 ^ 64) :
    Inside (readCentral cd pos name) := by
  unfold readCentral
  rw [sizeSub_of_le hpos hcd]
  refine (inside_failIf _).bind fun _ hfit => ?_
  have hfit := failIf_eq_ok.1 hfit
  rw [kCentralLen] at hfit
  refine (inside_readLe (by omega)).bind fun _ _ => ?_
  refine (inside_failIf _).bind fun _ _ => ?_
  refine (inside_readLe (by omega)).bind fun _ _ => ?_
  refine (inside_readLe (by omega)).bind fun _ _ => ?_
  refine (inside_readLe (by omega)).bind fun _ _ => ?_
  refine (inside_readLe (by omega)).bind fun _ _ => ?_
  refine (inside_readLe (by omega)).bind fun _ _ => ?_
  refine (inside_readLe (by omega)).bind fun nlen _ => ?_
  refine (inside_readLe (by omega)).bind fun xlen _ => ?_
  refine (inside_readLe (by omega)).bind fun clen _ => ?_
  refine (inside_readLe (by omega)).bind fun _ _ => ?_
  refine (inside_failIf _).bind fun _ hlen => ?_
  have hlen := failIf_eq_ok.1 hlen
  refine Inside.bind ?_ fun _ _ => inside_ok _
  rw [isHit]
  split
  · refine (inside_readSlice ?_).bind fun _ _ => inside_ok _
    omega
  · exact inside_ok _

/-- A record that is read ends within the directory, and a hit is the record of the name. -/
theorem readCentral_ok {c : Central} (hpos : pos ≤ cd.length) (hcd : cd.length < 2 ^ 64)
    (h : readCentral cd pos name = .ok c) :
    pos + c.len ≤ cd.length ∧ (c.hit = true → Record cd pos name c.crc) := by
  unfold readCentral at h
  rw [sizeSub_of_le hpos hcd] at h
  obtain ⟨_, hfit, h⟩ := bind_eq_ok.1 h
  have hfit := failIf_eq_ok.1 hfit
  obtain ⟨sig, hsig, h⟩ := bind_eq_ok.1 h
  obtain ⟨_, hsigOk, h⟩ := bind_eq_ok.1 h
  have hsigOk := failIf_eq_ok.1 hsigOk
  obtain ⟨flags, -, h⟩ := bind_eq_ok.1 h
  obtain ⟨method, -, h⟩ := bind_eq_ok.1 h
  obtain ⟨crc, hcrc, h⟩ := bind_eq_ok.1 h
  obtain ⟨csize, -, h⟩ := bind_eq_ok.1 h
  obtain ⟨usize, -, h⟩ := bind_eq_ok.1 h
  obtain ⟨nlen, hnlen, h⟩ := bind_eq_ok.1 h
  obtain ⟨xlen, -, h⟩ := bind_eq_ok.1 h
  obtain ⟨clen, -, h⟩ := bind_eq_ok.1 h
  obtain ⟨loff, -, h⟩ := bind_eq_ok.1 h
  obtain ⟨_, hlen, h⟩ := bind_eq_ok.1 h
  have hlen := failIf_eq_ok.1 hlen
  obtain ⟨hit, hhit, h⟩ := bind_eq_ok.1 h
  cases h
  refine ⟨by dsimp only; omega, ?_⟩
  intro htrue
  dsimp only at htrue
  subst htrue
  rw [isHit] at hhit
  split_ifs at hhit with hname
  · obtain ⟨stored, hstored, hhit⟩ := bind_eq_ok.1 hhit
    have hstored' : stored = name := eq_of_beq (Except.ok.inj hhit)
    rw [kCentralLen] at hfit hlen
    rw [le32, readLe_of_le (by omega)] at hsig hcrc
    rw [le16, readLe_of_le (by omega)] at hnlen
    rw [readSlice_of_le (by rw [kCentralLen]; omega)] at hstored
    refine ⟨?_, ?_, ?_, ?_, Except.ok.inj hcrc⟩
    · rw [kCentralLen]
      omega
    · rw [Except.ok.inj hsig]
      exact not_not.1 hsigOk
    · rw [Except.ok.inj hnlen, hname]
    · rw [← hname, Except.ok.inj hstored, hstored']
  · cases hhit

/-! ## The data -/

variable {z : Zlib} {f data : Bytes} {c : Central} {maxSize cdOff : ℕ}

theorem inside_dataOffset (f : Bytes) (loff : ℕ) : Inside (dataOffset f loff) := by
  unfold dataOffset
  refine (inside_orFail _ _).bind fun lh hlh => ?_
  have hlen := length_readAt (orFail_eq_ok.1 hlh)
  rw [kLocalLen] at hlen
  refine (inside_readLe (by omega)).bind fun _ _ => ?_
  refine (inside_failIf _).bind fun _ _ => ?_
  refine (inside_readLe (by omega)).bind fun _ _ => ?_
  refine (inside_readLe (by omega)).bind fun _ _ => ?_
  exact inside_ok _

theorem inside_unpack (packed : Bytes) (c : Central) : Inside (unpack z packed c) := by
  rw [unpack]
  split
  · exact inside_ok _
  · exact inside_orFail _ _

theorem inside_extract (c : Central) : Inside (extract z f cdOff maxSize c) := by
  unfold extract
  refine (inside_failIf _).bind fun _ _ => ?_
  refine (inside_failIf _).bind fun _ _ => ?_
  refine (inside_failIf _).bind fun _ _ => ?_
  refine (inside_failIf _).bind fun _ _ => ?_
  refine (inside_failIf _).bind fun _ _ => ?_
  refine (inside_dataOffset _ _).bind fun _ _ => ?_
  refine (inside_failIf _).bind fun _ _ => ?_
  refine (inside_orFail _ _).bind fun _ _ => ?_
  refine (inside_unpack _ _).bind fun _ _ => ?_
  refine (inside_failIf _).bind fun _ _ => ?_
  exact inside_ok _

theorem length_unpack {packed : Bytes} (hpacked : packed.length = c.csize)
    (hsizes : ¬ if c.method = 0 then c.csize ≠ c.usize else c.csize > kMaxPacked)
    (h : unpack z packed c = .ok data) : data.length = c.usize := by
  rw [unpack] at h
  split_ifs at h with hmethod
  · rw [if_pos hmethod, not_not] at hsizes
    cases h
    rw [hpacked, hsizes]
  · have hraw := orFail_eq_ok.1 h
    rw [inflateRaw] at hraw
    cases hwritten : z.inflate packed c.usize with
    | none =>
      rw [hwritten] at hraw
      cases hraw
    | some written =>
      rw [hwritten] at hraw
      dsimp only at hraw
      split_ifs at hraw with hlen
      cases hraw
      exact hlen

/-- The data has the size that is allowed, and the checksum of the record. -/
theorem extract_ok (h : extract z f cdOff maxSize c = .ok data) :
    data.length ≤ maxSize ∧ (z.crc32 data).toNat = c.crc := by
  unfold extract at h
  obtain ⟨_, -, h⟩ := bind_eq_ok.1 h
  obtain ⟨_, -, h⟩ := bind_eq_ok.1 h
  obtain ⟨_, hsize, h⟩ := bind_eq_ok.1 h
  obtain ⟨_, -, h⟩ := bind_eq_ok.1 h
  obtain ⟨_, hsizes, h⟩ := bind_eq_ok.1 h
  obtain ⟨dataOff, -, h⟩ := bind_eq_ok.1 h
  obtain ⟨_, -, h⟩ := bind_eq_ok.1 h
  obtain ⟨packed, hpacked, h⟩ := bind_eq_ok.1 h
  obtain ⟨data', hdata, h⟩ := bind_eq_ok.1 h
  obtain ⟨_, hcrc, h⟩ := bind_eq_ok.1 h
  cases h
  have hlen := length_unpack (length_readAt (orFail_eq_ok.1 hpacked)) (failIf_eq_ok.1 hsizes) hdata
  have hle := failIf_eq_ok.1 hsize
  exact ⟨by omega, not_not.1 (failIf_eq_ok.1 hcrc)⟩

/-! ## The walk and the whole call -/

theorem inside_walk (hcd : cd.length < 2 ^ 64) (n : ℕ) (hpos : pos ≤ cd.length) :
    Inside (walk z f cd cdOff name maxSize n pos) := by
  induction n generalizing pos with
  | zero => exact inside_fail _
  | succ n ih =>
    rw [walk]
    refine (inside_readCentral hpos hcd).bind fun c hc => ?_
    split
    · exact inside_extract c
    · exact ih (readCentral_ok hpos hcd hc).1

theorem walk_ok (hcd : cd.length < 2 ^ 64) {n : ℕ} (hpos : pos ≤ cd.length)
    (h : walk z f cd cdOff name maxSize n pos = .ok data) :
    data.length ≤ maxSize ∧ ∃ p, Record cd p name (z.crc32 data).toNat := by
  induction n generalizing pos with
  | zero => cases h
  | succ n ih =>
    rw [walk] at h
    obtain ⟨c, hc, h⟩ := bind_eq_ok.1 h
    obtain ⟨hnext, hrecord⟩ := readCentral_ok hpos hcd hc
    split at h
    · next hhit =>
      obtain ⟨hlen, hcrc⟩ := extract_ok h
      exact ⟨hlen, pos, hcrc ▸ hrecord hhit⟩
    · exact ih hnext h

theorem readDirectory_ok {e : Eocd} (h : readDirectory f e = .ok cd) :
    cd = (f.drop e.cdOff).take e.cdSize ∧ cd.length < 2 ^ 64 := by
  unfold readDirectory at h
  obtain ⟨_, -, h⟩ := bind_eq_ok.1 h
  obtain ⟨_, -, h⟩ := bind_eq_ok.1 h
  obtain ⟨_, hcap, h⟩ := bind_eq_ok.1 h
  have hcap := failIf_eq_ok.1 hcap
  rw [not_or, kMaxCentralDir] at hcap
  have hread := orFail_eq_ok.1 h
  constructor
  · rw [readAt] at hread
    split at hread
    · next hzero =>
      cases hread
      rw [hzero, List.take_zero]
    · rw [readBytes] at hread
      split_ifs at hread
      cases hread
      rfl
  · rw [length_readAt hread]
    omega

theorem inside_readContent (name : Bytes) (maxSize : ℕ) :
    Inside (readContent z f name maxSize) := by
  unfold readContent
  refine (inside_readEocd f).bind fun e _ => ?_
  refine (inside_readDirectory f e).bind fun cd hcd => ?_
  exact inside_walk (readDirectory_ok hcd).2 _ (Nat.zero_le _)

/-- The data is of the size that is allowed and of a record for the name in the directory. -/
theorem readContent_ok (h : readContent z f name maxSize = .ok data) :
    data.length ≤ maxSize ∧ ∃ e p, readEocd f = .ok e ∧
      Record ((f.drop e.cdOff).take e.cdSize) p name (z.crc32 data).toNat := by
  unfold readContent at h
  obtain ⟨e, he, h⟩ := bind_eq_ok.1 h
  obtain ⟨cd, hcd, h⟩ := bind_eq_ok.1 h
  obtain ⟨rfl, hlt⟩ := readDirectory_ok hcd
  obtain ⟨hlen, p, hrecord⟩ := walk_ok hlt (Nat.zero_le _) h
  exact ⟨hlen, e, p, he, hrecord⟩

end BambooNet.Zip
