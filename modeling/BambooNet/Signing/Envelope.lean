import BambooNet.Json.RoundTrip
import BambooNet.Signing.Sign

/-!
# What the envelope says

A signed payload is printed as the header followed by the entries of the payload, the root first
(`maybeSign_eq_dump`). The text of the members after the header is the text that was signed. The
one thing that can go wrong is a payload with a member `header` of its own: the envelope then has
two members of that name, and a reader sees only the first (`law_iff`).
-/

namespace BambooNet.Signing

open Json

variable {signer : Signer} {device : Option DeviceKey} {developer : Bool} {payload root : Bytes}
  {es obj : Object} {sign : Bytes → Bytes}

/-! ## Base64 -/

theorem b64Char_printable (w : ℕ) : 0x20 ≤ b64Char w := by
  have h : ∀ c ∈ kB64Tbl, 0x20 ≤ c := by decide +kernel
  rw [b64Char, List.getD_eq_getElem?_getD]
  cases hget : kB64Tbl[w &&& 63]? with
  | none => decide
  | some c => exact h c (List.mem_of_getElem? hget)

theorem base64Encode_printable (data : Bytes) : ∀ c ∈ base64Encode data, 0x20 ≤ c := by
  match data with
  | [] => simp [base64Encode]
  | [_] => simp [base64Encode, b64Char_printable]
  | [_, _] => simp [base64Encode, b64Char_printable]
  | _ :: _ :: _ :: data =>
    simpa [base64Encode, b64Char_printable] using base64Encode_printable data

/-! ## Field encryption -/

/-- Field encryption adds strings only. -/
theorem mem_encryptPrintFields {e : Bytes × Value}
    (h : e ∈ encryptPrintFields device developer obj) : e ∈ obj ∨ ∃ k s, e = (k, .string s) := by
  unfold encryptPrintFields at h
  split at h
  · exact .inl h
  · simp only at h
    split at h
    · split at h
      · exact .inl h
      · split at h
        · exact (Entries.mem_insert h).elim (fun he => .inr ⟨_, _, he⟩) .inl
        · have h := (Entries.mem_erase.1 h).1
          exact (Entries.mem_insert h).elim (fun he => .inr ⟨_, _, he⟩) .inl
    · exact .inl h

theorem sorted_encryptPrintFields (h : Entries.Sorted obj) :
    Entries.Sorted (encryptPrintFields device developer obj) := by
  unfold encryptPrintFields
  split
  · exact h
  · simp only
    split
    · split
      · exact h
      · split
        · exact h.insert _ _
        · exact (h.insert _ _).erase _
    · exact h

/-- The command as it is sent. -/
abbrev command (device : Option DeviceKey) (developer : Bool) (obj : Object) : Value :=
  .object (encryptPrintFields device developer obj)

theorem command_wf (h : (Value.object obj).WF) : (command device developer obj).WF := by
  cases h with
  | object hsorted hvalues =>
    refine .object (sorted_encryptPrintFields hsorted) fun e he => ?_
    rcases mem_encryptPrintFields he with he | ⟨k, s, rfl⟩
    · exact hvalues e he
    · exact .string trivial

theorem command_intNumbers (h : (Value.object obj).IntNumbers) :
    (command device developer obj).IntNumbers := by
  cases h with
  | object _ hvalues =>
    refine .object trivial fun e he => ?_
    rcases mem_encryptPrintFields he with he | ⟨k, s, rfl⟩
    · exact hvalues e he
    · exact .string trivial

theorem command_depth_le :
    (command device developer obj).depth ≤ (Value.object obj).depth := by
  have hle : Value.depthEntries (encryptPrintFields device developer obj) ≤
      Value.depthEntries obj := by
    refine Value.depthEntries_le_iff.2 fun e he => ?_
    rcases mem_encryptPrintFields he with he | ⟨k, s, rfl⟩
    · exact Value.depthEntries_le_iff.1 le_rfl e he
    · exact Nat.zero_le _
  exact Nat.succ_le_succ hle

/-! ## Signed payloads -/

theorem signable_cases (h : signableRootKey payload = some root) :
    root = ascii "print" ∨ root = ascii "liveview" := by
  unfold signableRootKey at h
  -- the payload opens an object, and the object a key
  split at h
  · contradiction
  split at h
  · contradiction
  split at h
  · contradiction
  split at h
  · contradiction
  dsimp only at h
  split at h
  · contradiction
  split at h
  · next hroot => exact .inl ((Option.some.inj h).symm.trans hroot)
  split at h
  · next hroot => exact .inr ((Option.some.inj h).symm.trans hroot.1)
  · contradiction

/-- A payload that is signed: a key is there, the payload parses to an object, and the value under
its root key is an object. -/
structure Accepted (signer : Signer) (payload : Bytes) (sign : Bytes → Bytes) (root : Bytes)
    (es obj : Object) : Prop where
  key : signer.pkey = some sign
  signable : signableRootKey payload = some root
  parsed : parse payload = .ok (.object es)
  member : Entries.get? root es = some (.object obj)

theorem find_root (h : signableRootKey payload = some root) (v : Value) :
    v.find root = (Entries.get? root v.asObject).getD .null := by
  rcases signable_cases h with rfl | rfl <;>
    exact Value.find_key (by decide) (List.all_iff_forall_prop.1 (by decide)) v

theorem buildCommandDump_eq (hsignable : signableRootKey payload = some root)
    (hparsed : parse payload = .ok (.object es))
    (hmember : Entries.get? root es = some (.object obj)) :
    buildCommandDump root payload device developer = some (command device developer obj).dump := by
  have hfind : (Value.object es).find root = .object obj := by
    rw [find_root hsignable, Value.asObject, hmember]
    rfl
  simp only [buildCommandDump, hparsed, hfind]

/-- Any other payload is passed on. -/
theorem maybeSign_of_not_accepted
    (h : ∀ sign root es obj, ¬ Accepted signer payload sign root es obj) :
    maybeSign signer device developer payload = payload := by
  unfold maybeSign
  split
  · next root sign hroot hkey =>
    split
    · rfl
    · next dump hdump =>
      exfalso
      unfold buildCommandDump at hdump
      split at hdump
      · contradiction
      · next v hv =>
        split at hdump
        · next obj hobj =>
          rw [find_root hroot] at hobj
          cases v with
          | object es =>
            refine h sign root es obj ⟨hkey, hroot, hv, ?_⟩
            cases hget : Entries.get? root es with
            | none => simp [Value.asObject, hget] at hobj
            | some w => simpa [Value.asObject, hget] using hobj
          | null | bool | number | string | array => simp [Value.asObject, Entries.get?] at hobj
        · contradiction
  · rfl

/-! ## The text of the envelope -/

/-- The members of the header. -/
def header (signer : Signer) (sign : Bytes → Bytes) (toSign : Bytes) : Object :=
  [(ascii "cert_id", .string signer.certId),
    (ascii "payload_len", .number (.int toSign.length)),
    (ascii "sign_alg", .string kSignAlg),
    (ascii "sign_string", .string (base64Encode (sign toSign))),
    (ascii "sign_ver", .string kSignVer)]

/-- The entries of the envelope as they are printed: the header, the root, the other members. -/
def entries (device : Option DeviceKey) (developer : Bool) (root : Bytes) (es obj : Object) :
    Object :=
  (root, command device developer obj) :: Entries.erase root es

/-- The text that is signed: the envelope without the header. -/
def signed (device : Option DeviceKey) (developer : Bool) (root : Bytes) (es obj : Object) :
    Bytes :=
  (Value.object (entries device developer root es obj)).dump

/-- The header of the envelope. -/
def headerEntry (signer : Signer) (device : Option DeviceKey) (developer : Bool)
    (sign : Bytes → Bytes) (root : Bytes) (es obj : Object) : Bytes × Value :=
  (ascii "header", .object (header signer sign (signed device developer root es obj)))

theorem siblings_eq (h : parse payload = .ok (.object es)) :
    siblings root payload =
      (Entries.erase root es).flatMap fun e => comma :: (escape e.1 ++ colon :: e.2.dump) := by
  simp only [siblings, h]
  clear h
  induction es with
  | nil => rfl
  | cons e es ih =>
    by_cases he : e.1 = root
    · simpa [Entries.erase, he] using ih
    · rw [List.flatMap_cons, if_neg he, ih]
      simp [Entries.erase, he, Value.dump, ascii]

theorem escape_root (h : signableRootKey payload = some root) :
    escape root = quote :: (root ++ [quote]) := by
  rcases signable_cases h with rfl | rfl <;> rfl

theorem toSign_eq (h : Accepted signer payload sign root es obj) :
    ascii "\x7b\"" ++ root ++ ascii "\":" ++
        ((command device developer obj).dump ++ siblings root payload) ++ ascii "\x7d" =
      signed device developer root es obj := by
  rw [signed, entries, dump_object (_ :: _), dumpEntries_flatMap, siblings_eq h.parsed,
    escape_root h.signable]
  simp [ascii]

theorem header_dump {toSign : Bytes} (hlen : toSign.length ≤ 2 ^ 53) :
    (Value.object (header signer sign toSign)).dump =
      ascii "\x7b\"cert_id\":\"" ++ jsonStrEscape signer.certId ++
        ascii "\",\"payload_len\":" ++ decimal toSign.length ++
        ascii ",\"sign_alg\":\"" ++ kSignAlg ++
        ascii "\",\"sign_string\":\"" ++ jsonStrEscape (base64Encode (sign toSign)) ++
        ascii "\",\"sign_ver\":\"" ++ kSignVer ++ ascii "\"\x7d" := by
  have hnum : (Double.int toSign.length).dump = decimal toSign.length := by
    rw [Double.dump, if_pos (by omega)]
    rfl
  have hcert : escape (ascii "cert_id") = ascii "\"cert_id\"" := rfl
  have hlength : escape (ascii "payload_len") = ascii "\"payload_len\"" := rfl
  have halg : escape (ascii "sign_alg") = ascii "\"sign_alg\"" := rfl
  have hstring : escape (ascii "sign_string") = ascii "\"sign_string\"" := rfl
  have hver : escape (ascii "sign_ver") = ascii "\"sign_ver\"" := rfl
  have hsignAlg : escape kSignAlg = quote :: (kSignAlg ++ [quote]) := rfl
  have hsignVer : escape kSignVer = quote :: (kSignVer ++ [quote]) := rfl
  rw [dump_object, header, dumpEntries_flatMap]
  simp only [List.flatMap_cons, List.flatMap_nil, Value.dump, hnum, hcert, hlength, halg, hstring,
    hver, hsignAlg, hsignVer, escape_printable signer.printable,
    escape_printable (base64Encode_printable _)]
  simp [ascii, jsonStrEscape]

/-- **The envelope is printed like an object** with the header first and the root second. -/
theorem maybeSign_eq_dump (h : Accepted signer payload sign root es obj)
    (hlen : (signed device developer root es obj).length ≤ 2 ^ 53) :
    maybeSign signer device developer payload =
      (Value.object (headerEntry signer device developer sign root es obj ::
        entries device developer root es obj)).dump := by
  simp only [maybeSign, h.signable, h.key, buildCommandDump_eq h.signable h.parsed h.member,
    toSign_eq h]
  have hheader : escape (ascii "header") = ascii "\"header\"" := rfl
  rw [dump_object (_ :: _), headerEntry, dumpEntries_flatMap, header_dump hlen, hheader, entries,
    List.flatMap_cons,
    ← siblings_eq h.parsed, escape_root h.signable, buildEnvelope]
  simp [ascii]

/-! ## The law of the envelope -/

/-- What the output for an accepted payload is: a JSON text, in which the header is followed by the
rest of the text that was signed, and which parses to the header and the members of the payload,
the command in place of the root. -/
structure Envelope (signer : Signer) (device : Option DeviceKey) (developer : Bool)
    (sign : Bytes → Bytes) (root : Bytes) (es obj : Object) (out : Bytes) : Prop where
  valid : ∃ t : JsonSyntax.Text, t.bytes = out
  splice : ∃ rest, signed device developer root es obj = ascii "\x7b" ++ rest ∧
    out = ascii "\x7b\"header\":" ++
      (headerEntry signer device developer sign root es obj).2.dump ++ ascii "," ++ rest
  parsed : ∃ m, parse out = .ok (.object m) ∧
    m.Perm (headerEntry signer device developer sign root es obj ::
      Entries.insert root (command device developer obj) es)

/-- What signing does to a payload: it makes an envelope of an accepted one and passes on every
other, and signing twice is signing once. -/
structure Law (signer : Signer) (device : Option DeviceKey) (developer : Bool) (payload : Bytes) :
    Prop where
  accepted : ∀ sign root es obj, Accepted signer payload sign root es obj →
    (Value.object es).IntNumbers →
    Envelope signer device developer sign root es obj (maybeSign signer device developer payload)
  other : (∀ sign root es obj, ¬ Accepted signer payload sign root es obj) →
    maybeSign signer device developer payload = payload
  twice : maybeSign signer device developer (maybeSign signer device developer payload) =
    maybeSign signer device developer payload

theorem signable_header (x : Bytes) : signableRootKey (ascii "\x7b\"header\":" ++ x) = none := by
  have hkey : signableRootKey (ascii "\x7b\"header\":" ++ x) =
      if (ascii "header").length = (ascii "header\":" ++ x).length then none
      else if ascii "header" = ascii "print" then some (ascii "header")
      else if ascii "header" = ascii "liveview" ∧
        ascii "\"prepare\"" <:+: ascii "\x7b\"header\":" ++ x then some (ascii "header")
      else none := rfl
  rw [hkey]
  split
  · rfl
  · rw [if_neg (by decide), if_neg fun h => absurd h.1 (by decide)]

/-- The output is the payload or begins with a header. -/
theorem maybeSign_cases (signer : Signer) (device : Option DeviceKey) (developer : Bool)
    (payload : Bytes) :
    maybeSign signer device developer payload = payload ∨
      ascii "\x7b\"header\":" <+: maybeSign signer device developer payload := by
  unfold maybeSign
  split
  · split
    · exact .inl rfl
    · simp only [buildEnvelope, List.append_assoc]
      have hcert :
          ascii "\x7b\"header\":" <+: ascii "\x7b\"header\":\x7b\"cert_id\":\"" := by decide
      exact .inr (hcert.trans (List.prefix_append _ _))
  · exact .inl rfl

theorem maybeSign_twice :
    maybeSign signer device developer (maybeSign signer device developer payload) =
      maybeSign signer device developer payload := by
  rcases maybeSign_cases signer device developer payload with h | ⟨x, h⟩
  · rw [h, h]
  · rw [← h]
    exact maybeSign_of_not_accepted fun _ _ _ _ ha => by
      simpa [signable_header x] using ha.signable

theorem length_signed_le (h : Accepted signer payload sign root es obj) :
    (signed device developer root es obj).length ≤
      (maybeSign signer device developer payload).length := by
  simp only [maybeSign, h.signable, h.key, buildCommandDump_eq h.signable h.parsed h.member,
    ← toSign_eq h, buildEnvelope, List.length_append]
  have hlen : (ascii "\x7b\"").length ≤ (ascii "\x7b\"header\":\x7b\"cert_id\":\"").length := by
    decide
  omega

theorem get?_parsed (h : parse payload = .ok (.object es)) :
    Entries.Sorted es ∧ (∀ e ∈ es, e.2.WF) ∧ ∀ e ∈ es, e.2.depth < kMaxNestingDepth := by
  rcases parse_cases payload with ⟨e, he, -⟩ | ⟨v, hv, hwf, hdepth⟩
  · rw [h] at he
    contradiction
  · rw [h] at hv
    obtain rfl := Except.ok.inj hv
    cases hwf with
    | object hsorted hvalues =>
      refine ⟨hsorted, hvalues, fun e he => ?_⟩
      have := Value.depthEntries_le_iff.1 le_rfl e he
      rw [Value.depth] at hdepth
      omega

/-- The entries of the envelope print and are not nested too deep. -/
theorem entries_print (h : Accepted signer payload sign root es obj)
    (hint : (Value.object es).IntNumbers) :
    ∀ e ∈ entries device developer root es obj,
      (∃ node, Prints e.2 node) ∧ e.2.depth < kMaxNestingDepth := by
  obtain ⟨hsorted, hwf, hdepth⟩ := get?_parsed h.parsed
  have hroot := (Entries.get?_eq_some_iff hsorted).1 h.member
  cases hint with
  | object _ hint =>
    intro e he
    rcases List.mem_cons.1 he with rfl | he
    · exact ⟨exists_node (command_wf (hwf _ hroot)) (command_intNumbers (hint _ hroot)),
        command_depth_le.trans_lt (hdepth _ hroot)⟩
    · have he := (Entries.mem_erase.1 he).1
      exact ⟨exists_node (hwf e he) (hint e he), hdepth e he⟩

theorem header_prints {toSign : Bytes} (hlen : toSign.length ≤ 2 ^ 53) :
    ∃ node, Prints (.object (header signer sign toSign)) node := by
  have hsorted : Entries.Sorted (header signer sign toSign) := by
    refine List.Pairwise.of_map (S := (· < ·)) (·.1) (fun _ _ => id) ?_
    show List.Pairwise (· < ·) [ascii "cert_id", ascii "payload_len", ascii "sign_alg",
      ascii "sign_string", ascii "sign_ver"]
    decide
  refine exists_node (.object hsorted ?_) (.object trivial ?_)
  · simp only [header, List.forall_mem_cons]
    exact ⟨.string trivial, .number trivial, .string trivial, .string trivial, .string trivial,
      List.forall_mem_nil _⟩
  · simp only [header, List.forall_mem_cons]
    exact ⟨.string trivial, .number ⟨_, rfl, hlen⟩, .string trivial, .string trivial,
      .string trivial, List.forall_mem_nil _⟩

theorem header_depth : (headerEntry signer device developer sign root es obj).2.depth <
    kMaxNestingDepth := by
  simp [headerEntry, header, Value.depth, Value.depthEntries, kMaxNestingDepth]

/-- The keys of the envelope. -/
theorem nodup_iff (hsorted : Entries.Sorted es) (hroot : root ≠ ascii "header") (v w : Value) :
    (((ascii "header", v) :: Entries.insert root w es).map (·.1)).Nodup ↔
      Entries.get? (ascii "header") es = none := by
  have hget : Entries.get? (ascii "header") (Entries.insert root w es) =
      Entries.get? (ascii "header") es := by
    rw [Entries.get?_insert, if_neg hroot.symm]
  rw [← hget, Entries.get?_eq_none_iff, List.map_cons, List.nodup_cons,
    and_iff_left (hsorted.insert root w).keys_nodup]
  simp only [List.mem_map, not_exists, not_and]

theorem root_ne_header (h : signableRootKey payload = some root) : root ≠ ascii "header" := by
  rcases signable_cases h with rfl | rfl <;> decide

/-- **An accepted payload without a header of its own becomes an envelope.** -/
theorem envelope (h : Accepted signer payload sign root es obj)
    (hint : (Value.object es).IntNumbers) (hheader : Entries.get? (ascii "header") es = none)
    (hlen : (maybeSign signer device developer payload).length ≤ 2 ^ 53) :
    Envelope signer device developer sign root es obj
      (maybeSign signer device developer payload) := by
  have hsigned : (signed device developer root es obj).length ≤ 2 ^ 53 :=
    (length_signed_le h).trans hlen
  have hdump := maybeSign_eq_dump h hsigned
  obtain ⟨hsorted, -, -⟩ := get?_parsed h.parsed
  have hprint : ∀ e ∈ headerEntry signer device developer sign root es obj ::
      entries device developer root es obj,
      (∃ node, Prints e.2 node) ∧ e.2.depth < kMaxNestingDepth :=
    List.forall_mem_cons.2 ⟨⟨header_prints hsigned, header_depth⟩, entries_print h hint⟩
  obtain ⟨t, ht, hparse⟩ := exists_text (by simp) (fun e he => (hprint e he).1)
    fun e he => (hprint e he).2
  refine ⟨⟨t, ht.trans hdump.symm⟩, ?_, _, (hdump.trans ht.symm) ▸ hparse, ?_⟩
  · refine ⟨dumpEntries (entries device developer root es obj) ++ [rbrace], dump_object _, ?_⟩
    have hkey : escape (ascii "header") = ascii "\"header\"" := rfl
    rw [hdump, dump_object (_ :: _), entries, headerEntry, dumpEntries_cons, hkey]
    simp [ascii]
  · have hperm := (hsorted.insert_perm_erase root (command device developer obj)).symm.cons
      (headerEntry signer device developer sign root es obj)
    have hnodup := (nodup_iff hsorted (root_ne_header h.signable)
      (headerEntry signer device developer sign root es obj).2
      (command device developer obj)).2 hheader
    exact (Entries.ofList_perm_iff.2 ((hperm.map (·.1)).nodup_iff.2 hnodup)).trans hperm

/-- A payload with a header of its own does not. -/
theorem header_eq_none {out : Bytes} (h : Accepted signer payload sign root es obj)
    (henv : Envelope signer device developer sign root es obj out) :
    Entries.get? (ascii "header") es = none := by
  obtain ⟨hsorted, -, -⟩ := get?_parsed h.parsed
  obtain ⟨m, hm, hperm⟩ := henv.parsed
  have hnodup := (hperm.map (·.1)).nodup_iff.1 (get?_parsed hm).1.keys_nodup
  exact (nodup_iff hsorted (root_ne_header h.signable) _ _).1 hnodup

/-- **Signing obeys its law unless the payload has a member `header`**, which the envelope repeats
after its own header. The output is taken to be shorter than `2 ^ 53` bytes, so that its length is
a number like the others. -/
theorem law_iff (signer : Signer) (device : Option DeviceKey) (developer : Bool) (payload : Bytes)
    (hlen : (maybeSign signer device developer payload).length ≤ 2 ^ 53) :
    Law signer device developer payload ↔
      ∀ sign root es obj, Accepted signer payload sign root es obj →
        (Value.object es).IntNumbers → Entries.get? (ascii "header") es = none := by
  constructor
  · intro law sign root es obj h hint
    exact header_eq_none h (law.accepted sign root es obj h hint)
  · intro hheader
    refine ⟨fun sign root es obj h hint => ?_, maybeSign_of_not_accepted, maybeSign_twice⟩
    exact envelope h hint (hheader sign root es obj h hint) hlen

/-- A signer for examples. -/
def someSigner : Signer :=
  ⟨some fun _ => [1, 2, 3], ascii "0aCN=ca", List.all_iff_forall_prop.1 (by decide)⟩

/-- A device key for examples, of 16 bytes. -/
def someDevice : DeviceKey := ⟨16, fun _ => some⟩

/-- A command with a field that is encrypted, and a sibling. -/
def gcodePayload : Bytes :=
  ascii ("\x7b\"print\":\x7b\"command\":\"gcode_line\",\"param\":\"G28\"\x7d," ++
    "\"user_id\":\"7\"\x7d")

def gcodeCommand : Object :=
  [(ascii "command", .string (ascii "gcode_line")), (ascii "param", .string (ascii "G28"))]

theorem accepted_gcodePayload : Accepted someSigner gcodePayload (fun _ => [1, 2, 3])
    (ascii "print") [(ascii "print", .object gcodeCommand), (ascii "user_id", .string (ascii "7"))]
    gcodeCommand := ⟨rfl, rfl, rfl, rfl⟩

theorem intNumbers_gcodeCommand : (Value.object gcodeCommand).IntNumbers := by
  refine .object trivial ?_
  simp only [gcodeCommand, List.forall_mem_cons]
  exact ⟨.string trivial, .string trivial, List.forall_mem_nil _⟩

theorem law_iff_gcode : Law someSigner (some someDevice) false gcodePayload ∧
    Envelope someSigner (some someDevice) false (fun _ => [1, 2, 3]) (ascii "print")
      [(ascii "print", .object gcodeCommand), (ascii "user_id", .string (ascii "7"))] gcodeCommand
      (maybeSign someSigner (some someDevice) false gcodePayload) := by
  have hlen : (maybeSign someSigner (some someDevice) false gcodePayload).length ≤ 400 := by
    decide +kernel
  have hint : (Value.object [(ascii "print", .object gcodeCommand),
      (ascii "user_id", .string (ascii "7"))]).IntNumbers := by
    refine .object trivial ?_
    simp only [List.forall_mem_cons]
    exact ⟨intNumbers_gcodeCommand, .string trivial, List.forall_mem_nil _⟩
  have law : Law someSigner (some someDevice) false gcodePayload := by
    refine (law_iff someSigner _ false _ (hlen.trans (by norm_num))).2 ?_
    intro sign root es obj h _
    have heq := h.parsed.symm.trans accepted_gcodePayload.parsed
    obtain rfl := Value.object.inj (Except.ok.inj heq)
    rfl
  exact ⟨law, law.accepted _ _ _ _ accepted_gcodePayload hint⟩

/-- A member `header` after the root is printed after the header of the envelope, and a reader never
sees it. -/
theorem header_breaks_law :
    ¬ Law someSigner none false (ascii "\x7b\"print\":\x7b\x7d,\"header\":null\x7d") := by
  intro law
  have hpayload : Accepted someSigner (ascii "\x7b\"print\":\x7b\x7d,\"header\":null\x7d")
      (fun _ => [1, 2, 3]) (ascii "print")
      [(ascii "header", .null), (ascii "print", .object [])] [] := ⟨rfl, rfl, rfl, rfl⟩
  have hint : (Value.object [(ascii "header", .null), (ascii "print", .object [])]).IntNumbers := by
    refine .object trivial ?_
    simp only [List.forall_mem_cons]
    exact ⟨.null trivial, .object trivial (List.forall_mem_nil _), List.forall_mem_nil _⟩
  have hnone := header_eq_none hpayload (law.accepted _ _ _ _ hpayload hint)
  cases hnone

/-! ## Cleartext beside ciphertext -/

/-- A command carries a field in cleartext and encrypted. -/
def HasBoth (field : Bytes) (obj : Object) : Prop :=
  (Entries.get? field obj).isSome ∧ (Entries.get? (field ++ ascii "_enc") obj).isSome

variable {field : Bytes}

/-- What encryption does for a secured printer: it drops the cleartext when it adds the
ciphertext, and leaves the command alone otherwise. -/
theorem encryptPrintFields_cases (hfield : encryptedFieldFor obj = some field)
    (device : Option DeviceKey) :
    encryptPrintFields device false obj = obj ∨
      Entries.get? (field ++ ascii "_enc") obj = none ∧
        ∃ enc, encryptPrintFields device false obj =
          Entries.erase field (Entries.insert (field ++ ascii "_enc") (.string enc) obj) := by
  unfold encryptPrintFields
  simp only [hfield]
  split
  · split
    · exact .inl rfl
    · next hnot =>
      rw [not_or, Bool.not_eq_true, Option.isSome_eq_false_iff, Option.isNone_iff_eq_none] at hnot
      exact .inr ⟨hnot.1, _, rfl⟩
  · exact .inl rfl

theorem hasBoth_encrypt_iff (hfield : encryptedFieldFor obj = some field) :
    HasBoth field (encryptPrintFields device false obj) ↔ HasBoth field obj := by
  rcases encryptPrintFields_cases hfield device with heq | ⟨hnone, enc, heq⟩
  · rw [heq]
  · rw [heq]
    constructor
    · intro h
      simp [HasBoth, Entries.get?_erase_self] at h
    · intro h
      simp [HasBoth, hnone] at h

/-- The printed command reads back. -/
theorem parse_command (hparsed : parse payload = .ok (.object es))
    (hmember : Entries.get? root es = some (.object obj)) (hint : (Value.object obj).IntNumbers) :
    parse (command device developer obj).dump = .ok (command device developer obj) := by
  obtain ⟨hsorted, hwf, hdepth⟩ := get?_parsed hparsed
  have hroot := (Entries.get?_eq_some_iff hsorted).1 hmember
  have hcommand : (command device developer obj).WF := command_wf (hwf _ hroot)
  obtain ⟨node, hnode⟩ := exists_node hcommand (command_intNumbers hint)
  exact parse_of_prints hnode (command_depth_le.trans (hdepth _ hroot).le)

/-- **For a secured printer no command carries a field in cleartext beside its ciphertext, unless
it came with both**; such a command is passed on as it is. When the encryption succeeds, the
cleartext is gone. -/
theorem secured_dump (hsignable : signableRootKey payload = some root)
    (hparsed : parse payload = .ok (.object es))
    (hmember : Entries.get? root es = some (.object obj))
    (hfield : encryptedFieldFor obj = some field) (device : Option DeviceKey) :
    buildCommandDump root payload device false = some (command device false obj).dump ∧
      ((Value.object obj).IntNumbers →
        parse (command device false obj).dump = .ok (command device false obj)) ∧
      (HasBoth field (encryptPrintFields device false obj) ↔ HasBoth field obj) ∧
      (HasBoth field obj → encryptPrintFields device false obj = obj) ∧
      ∀ pub clear, device = some pub → Entries.get? field obj = some (.string clear) →
        Entries.get? (field ++ ascii "_enc") obj = none → rsaPkcs1v15EncryptB64 pub clear ≠ [] →
        Entries.get? field (encryptPrintFields device false obj) = none := by
  refine ⟨buildCommandDump_eq hsignable hparsed hmember, parse_command hparsed hmember,
    hasBoth_encrypt_iff hfield, fun hboth => ?_, ?_⟩
  · rcases encryptPrintFields_cases hfield device with heq | ⟨hnone, -⟩
    · exact heq
    · simp [HasBoth, hnone] at hboth
  · rintro pub clear rfl hclear hnone henc
    simp [encryptPrintFields, hfield, hclear, hnone, henc, Entries.get?_erase_self]

theorem secured_dump_gcode :
    let dump := (command (some someDevice) false gcodeCommand).dump
    buildCommandDump (ascii "print") gcodePayload (some someDevice) false = some dump ∧
      parse dump = .ok (command (some someDevice) false gcodeCommand) ∧
      ¬ HasBoth (ascii "param") (encryptPrintFields (some someDevice) false gcodeCommand) ∧
      Entries.get? (ascii "param") (encryptPrintFields (some someDevice) false gcodeCommand) =
        none := by
  obtain ⟨hdump, hparse, hboth, -, hgone⟩ := secured_dump accepted_gcodePayload.signable
    accepted_gcodePayload.parsed accepted_gcodePayload.member rfl (some someDevice)
  refine ⟨hdump, hparse intNumbers_gcodeCommand, fun h => ?_,
    hgone _ (ascii "G28") rfl rfl rfl (by decide)⟩
  obtain ⟨-, henc⟩ := hboth.1 h
  exact absurd henc (by decide)

/-- A line of G-code with an encrypted form beside it. -/
def gcodeLine : Object := gcodeCommand ++ [(ascii "param_enc", .string (ascii "RzI4"))]

/-- A command that comes with an encrypted form keeps its cleartext. -/
theorem prebuilt_keeps_cleartext : ∃ dump cmd,
    buildCommandDump (ascii "print")
        (ascii ("\x7b\"print\":\x7b\"command\":\"gcode_line\",\"param\":\"G28\"," ++
          "\"param_enc\":\"RzI4\"\x7d\x7d")) (some ⟨256, fun _ => some⟩) false = some dump ∧
      parse dump = .ok (.object cmd) ∧ encryptedFieldFor cmd = some (ascii "param") ∧
      HasBoth (ascii "param") cmd := by
  have hparsed : parse (ascii ("\x7b\"print\":\x7b\"command\":\"gcode_line\",\"param\":\"G28\"," ++
      "\"param_enc\":\"RzI4\"\x7d\x7d")) =
      .ok (.object [(ascii "print", .object gcodeLine)]) := rfl
  have hmember : Entries.get? (ascii "print") [(ascii "print", Value.object gcodeLine)] =
      some (.object gcodeLine) := rfl
  have hint : (Value.object gcodeLine).IntNumbers := by
    refine .object trivial ?_
    simp only [gcodeLine, gcodeCommand, List.cons_append, List.nil_append, List.forall_mem_cons]
    exact ⟨.string trivial, .string trivial, .string trivial, List.forall_mem_nil _⟩
  exact ⟨_, _, buildCommandDump_eq rfl hparsed hmember, parse_command hparsed hmember hint, rfl,
    rfl, rfl⟩

end BambooNet.Signing
