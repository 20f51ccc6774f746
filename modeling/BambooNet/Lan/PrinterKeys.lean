import BambooNet.Lib.SortedMap
import BambooNet.Lib.Threads
import BambooNet.Lib.Bytes
import Mathlib.Tactic.Ring

/-!
# The cache of printer keys

Commands to a printer carry fields that are encrypted with its public key. The key is taken from
the device certificate, and as long as there is none from the TLS connection or from a file. Every
call takes the lock of the cache for short sections only: a file is read with the lock released, and
what was looked up before may have changed since.

**Ownership.** A key lives as long as references to it are held. `Cache.Balanced` is the ledger: the
references on a key are those of the map, those of the callers, and those that a section has in its
hands. Each primitive changes it in one place.

**Theorem (`printerKeys_safe`).** However the sections of the calls interleave, the key of a device
certificate stays until the printer is forgotten, a stored key is what every later lookup returns,
and the references add up.
-/

namespace BambooNet.CertStore

/-- An address of a key. -/
abbrev Key := ℕ

/-! ## The cache -/

structure Cache where
  /-- `g_pubkey_map` -/
  map : SortedMap Bytes Key := ∅
  /-- `g_pubkey_neg_cache`, in nanoseconds -/
  neg : SortedMap Bytes ℤ := ∅
  /-- The references on the key at an address, 0 where there is none. -/
  refs : Key → ℤ := fun _ => 0
  /-- The references that callers have to free. The program keeps no such list. -/
  handed : Key → ℤ := fun _ => 0
  /-- The key of the device certificate stored last, until the printer is forgotten. The program
  keeps no such table. -/
  certified : Bytes → Option Key := fun _ => none

def kNegCacheTtl : ℤ := 10 * 10 ^ 9

/-- Add to the count of a key. -/
def bump (f : Key → ℤ) (k : Key) (n : ℤ) : Key → ℤ := Function.update f k (f k + n)

namespace Cache

variable (c : Cache)

def upRef (k : Key) : Cache := { c with refs := bump c.refs k 1 }

def free (k : Key) : Cache := { c with refs := bump c.refs k (-1) }

/-- A new key, with one reference. -/
def alloc (k : Key) : Cache := { c with refs := Function.update c.refs k 1 }

/-- A reference goes to a caller. -/
def hand (k : Key) : Cache := { c with handed := bump c.handed k 1 }

/-- What the first section of `get_printer_pub_key` finds. -/
inductive Found
  | hit (k : Key)
  | recentMiss
  | miss (now : ℤ)

def lookup (dev : Bytes) (now : ℤ) : Found × Cache :=
  match c.map.get? dev with
  | some k => (.hit k, (c.upRef k).hand k)
  | none =>
    match c.neg.get? dev with
    | some before => if now - before < kNegCacheTtl then (.recentMiss, c) else (.miss now, c)
    | none => (.miss now, c)

/-- The section of `get_printer_pub_key` after a key was read from the disk. -/
def relook (dev : Bytes) : Option Key × Cache :=
  let c := { c with neg := c.neg.erase dev }
  match c.map.get? dev with
  | some k => (some k, (c.upRef k).hand k)
  | none => (none, c)

def rememberMiss (dev : Bytes) (now : ℤ) : Cache := { c with neg := c.neg.insert dev now }

def setPrinterPubKey (dev : Bytes) (pkey : Option Key) : Cache :=
  match pkey with
  | none => c
  | some k =>
    let c := c.upRef k
    let c := { c with neg := c.neg.erase dev }
    if (c.map.get? dev).isSome then c.free k else { c with map := c.map.insert dev k }

/-- The rest of `prime_pub_key_from_cert_file`, once the file is open: `k` is the key in it. -/
def load (dev : Bytes) (k : Key) : Cache :=
  ((c.alloc k).setPrinterPubKey dev (some k)).free k

/-- The section of `set_printer_pub_key_from_cert_pem`. The map takes the reference over. -/
def install (dev : Bytes) (k : Key) : Cache :=
  let c := c.alloc k
  let c := { c with neg := c.neg.erase dev, certified := Function.update c.certified dev (some k) }
  match c.map.get? dev with
  | some old => { c.free old with map := c.map.insert dev k }
  | none => { c with map := c.map.insert dev k }

def forgetPrinter (dev : Bytes) : Cache :=
  let c :=
    { c with neg := c.neg.erase dev, certified := Function.update c.certified dev none }
  match c.map.get? dev with
  | some k => { c.free k with map := c.map.erase dev }
  | none => c

end Cache

/-! ## The calls -/

/-- A section under the lock, with what is done around it, or a look at the system. -/
inductive Op
  | lookup (dev : Bytes)
  | configDir
  | isRegularFile (path : Bytes)
  | count (dev : Bytes)
  | load (dev path : Bytes)
  | relook (dev : Bytes)
  | rememberMiss (dev : Bytes) (now : ℤ)
  | set (dev : Bytes) (pkey : Option Key)
  | install (dev certPem : Bytes)
  | forget (dev : Bytes)

@[reducible] def Ans : Op → Type
  | .lookup _ => Cache.Found
  | .configDir => Bytes
  | .isRegularFile _ => Bool
  | .count _ => Bool
  | .load _ _ => Bool
  | .relook _ => Option Key
  | .rememberMiss _ _ => Unit
  | .set _ _ => Unit
  | .install _ _ => Bool
  | .forget _ => Unit

/-- What a call returns. -/
inductive Result
  | key (pkey : Option Key)
  | ok (success : Bool)
  | done

/-- The system in one turn. -/
structure World where
  now : ℤ := 0
  configDir : Bytes := []
  regularFile : Bool := false
  /-- Where the public key of the certificate that is read is put. There may be no such key. -/
  certKey : Option Key := none

/-- A key that is read is put where no live key is. -/
def World.newKey (w : World) (c : Cache) : Option Key := w.certKey.filter fun k => c.refs k = 0

def handle (w : World) : (op : Op) → Cache → Ans op × Cache
  | .lookup dev, c => c.lookup dev w.now
  | .configDir, c => (w.configDir, c)
  | .isRegularFile _, c => (w.regularFile, c)
  | .count dev, c => ((c.map.get? dev).isSome, c)
  | .load dev _, c =>
    match w.newKey c with
    | none => (false, c)
    | some k => (true, c.load dev k)
  | .relook dev, c => c.relook dev
  | .rememberMiss dev now, c => ((), c.rememberMiss dev now)
  | .set dev pkey, c => ((), c.setPrinterPubKey dev pkey)
  | .install dev _, c =>
    match w.newKey c with
    | none => (false, c)
    | some k => (true, c.install dev k)
  | .forget dev, c => ((), c.forgetPrinter dev)

abbrev Thread := Program Op Ans

def perform (op : Op) : Thread (Ans op) := .lift op

/-- `std::filesystem::path::operator/` -/
def appendPath (base name : Bytes) : Bytes :=
  if name.head? = some 0x2f then name
  else if base = [] ∨ base.getLast? = some 0x2f then base ++ name
  else base ++ 0x2f :: name

def deviceCertPath (configDir dev : Bytes) : Bytes :=
  let slash := configDir.getLast? = some 0x2f ∨ configDir.getLast? = some 0x5c
  let base := if slash then configDir.dropLast else configDir
  appendPath (appendPath base (ascii "certs")) (dev ++ ascii ".pem")

def primePubKeyFromCertFile (dev path : Bytes) : Thread Bool :=
  if dev = [] then pure false
  else do
    if ← perform (.count dev) then pure true
    else if path = [] then pure false
    else perform (.load dev path)

/-- The last section of `get_printer_pub_key`. -/
def missed (dev : Bytes) (now : ℤ) : Thread Result := do
  perform (.rememberMiss dev now)
  pure (.key none)

/-- `get_printer_pub_key` once its file has been looked at. -/
def afterPrime (dev : Bytes) (now : ℤ) (primed : Bool) : Thread Result :=
  if primed then
    perform (.relook dev) >>= fun found =>
      if found.isSome then pure (.key found) else missed dev now
  else missed dev now

def diskFallback (dev : Bytes) (now : ℤ) : Thread Result := do
  let cdir ← perform .configDir
  if cdir = [] then pure (.key none)
  else do
    let certFile := deviceCertPath cdir dev
    if ← perform (.isRegularFile certFile) then do
      let primed ← primePubKeyFromCertFile dev certFile
      afterPrime dev now primed
    else missed dev now

def afterLookup (dev : Bytes) : Cache.Found → Thread Result
  | .hit k => pure (.key (some k))
  | .recentMiss => pure (.key none)
  | .miss now => diskFallback dev now

def getPrinterPubKey (dev : Bytes) : Thread Result :=
  if dev = [] then pure (.key none) else perform (.lookup dev) >>= afterLookup dev

def setPrinterPubKeyFromCertPem (dev certPem : Bytes) : Thread Result :=
  if dev = [] ∨ certPem = [] then pure (.ok false)
  else do
    let stored ← perform (.install dev certPem)
    pure (.ok stored)

inductive Call
  | get (dev : Bytes)
  | set (dev : Bytes) (pkey : Option Key)
  | setFromCertPem (dev certPem : Bytes)
  | prime (dev path : Bytes)
  | forget (dev : Bytes)

def body : Call → Thread Result
  | .get dev => getPrinterPubKey dev
  | .set dev pkey => do
    perform (.set dev pkey)
    pure .done
  | .setFromCertPem dev certPem => setPrinterPubKeyFromCertPem dev certPem
  | .prime dev path => do
    let present ← primePubKeyFromCertFile dev path
    pure (.ok present)
  | .forget dev => do
    perform (.forget dev)
    pure .done

/-- What callers do between calls. -/
inductive Caller
  /-- `capture_peer_cert_pem` takes the key of the TLS peer from its certificate. -/
  | capture (k : Key)
  /-- `EVP_PKEY_free` of a reference that was handed out -/
  | free (k : Key)

def caller (e : Caller) (c : Cache) : Cache :=
  match e with
  | .capture k => if c.refs k = 0 then (c.alloc k).hand k else c
  | .free k => if 0 < c.handed k then { c.free k with handed := bump c.handed k (-1) } else c

abbrev State (θ : Type) := Threads θ Cache Op Ans Result

variable {θ : Type} [DecidableEq θ]

def step (s : State θ) (e : Turn θ World Call Caller) : State θ :=
  Threads.step handle body caller s e

def initial : State θ := { shared := {}, prog := fun _ => pure .done }

/-! ## The ledger -/

namespace Cache

/-- The references on a key are those of the map, those of the callers and those in hand. -/
def Balanced (inHand : Key → ℤ) (c : Cache) : Prop :=
  ∀ k, c.refs k = c.map.holders k + c.handed k + inHand k

theorem bump_apply (f : Key → ℤ) (k : Key) (n : ℤ) (j : Key) :
    bump f k n j = f j + if k = j then n else 0 := by
  rw [bump, Function.update_apply]
  by_cases h : j = k
  · rw [if_pos h, if_pos h.symm, h]
  · rw [if_neg h, if_neg (Ne.symm h), add_zero]

@[simp] theorem bump_bump_neg (f : Key → ℤ) (k : Key) (n : ℤ) : bump (bump f k n) k (-n) = f := by
  funext j
  rw [bump_apply, bump_apply]
  split <;> ring

variable {c : Cache} {inHand : Key → ℤ} {dev : Bytes} {k : Key}

theorem Balanced.upRef (h : c.Balanced inHand) (k : Key) :
    (c.upRef k).Balanced (bump inHand k 1) := by
  intro j
  have hj := h j
  simp only [Cache.upRef, bump_apply, hj]
  ring

theorem Balanced.free (h : c.Balanced inHand) (k : Key) :
    (c.free k).Balanced (bump inHand k (-1)) := by
  intro j
  have hj := h j
  simp only [Cache.free, bump_apply, hj]
  ring

theorem Balanced.hand (h : c.Balanced inHand) (k : Key) :
    (c.hand k).Balanced (bump inHand k (-1)) := by
  intro j
  have hj := h j
  simp only [Cache.hand, bump_apply, hj]
  split <;> ring

theorem Balanced.alloc (h : c.Balanced inHand) (hnew : c.refs k = 0) :
    (c.alloc k).Balanced (bump inHand k 1) := by
  have heq : Function.update c.refs k 1 = bump c.refs k 1 := by rw [bump, hnew, zero_add]
  rw [Cache.alloc, heq]
  exact h.upRef k

theorem Balanced.add (h : c.Balanced inHand) (hdev : c.map.get? dev = none) (k : Key) :
    { c with map := c.map.insert dev k }.Balanced (bump inHand k (-1)) := by
  intro j
  have hj := h j
  simp only [SortedMap.holders_insert, SortedMap.erase_of_get?_eq_none hdev, bump_apply, hj]
  push_cast
  split <;> ring

theorem Balanced.drop (h : c.Balanced inHand) (hdev : c.map.get? dev = some k) :
    { c with map := c.map.erase dev }.Balanced (bump inHand k 1) := by
  intro j
  have hj := h j
  rw [SortedMap.holders_of_get?_eq_some hdev] at hj
  push_cast at hj
  simp only [bump_apply, hj]
  ring

theorem Balanced.give (h : c.Balanced inHand) (k : Key) :
    ((c.upRef k).hand k).Balanced inHand := by
  have hgive := (h.upRef k).hand k
  rwa [bump_bump_neg] at hgive

theorem Balanced.lookup (h : c.Balanced inHand) (dev : Bytes) (now : ℤ) :
    (c.lookup dev now).2.Balanced inHand := by
  rw [Cache.lookup]
  split
  · exact h.give _
  · split
    · split
      · exact h
      · exact h
    · exact h

theorem Balanced.relook (h : c.Balanced inHand) (dev : Bytes) :
    (c.relook dev).2.Balanced inHand := by
  rw [Cache.relook]
  dsimp only
  split
  · exact Balanced.give (c := { c with neg := c.neg.erase dev }) h _
  · exact h

theorem Balanced.setPrinterPubKey (h : c.Balanced inHand) (dev : Bytes) (pkey : Option Key) :
    (c.setPrinterPubKey dev pkey).Balanced inHand := by
  cases pkey with
  | none => exact h
  | some k =>
    have hup := h.upRef k
    rw [Cache.setPrinterPubKey]
    dsimp only
    split
    · -- there is an entry, and the new reference is dropped
      have hfree := hup.free k
      rwa [bump_bump_neg] at hfree
    · next hdev =>
      rw [Option.not_isSome_iff_eq_none] at hdev
      have hadd := hup.add hdev k
      rwa [bump_bump_neg] at hadd

theorem Balanced.load (h : c.Balanced inHand) (hnew : c.refs k = 0) (dev : Bytes) :
    (c.load dev k).Balanced inHand := by
  have hfree := ((h.alloc hnew).setPrinterPubKey dev (some k)).free k
  rwa [bump_bump_neg] at hfree

theorem Balanced.install (h : c.Balanced inHand) (hnew : c.refs k = 0) (dev : Bytes) :
    (c.install dev k).Balanced inHand := by
  have halloc := h.alloc hnew
  rw [Cache.install]
  dsimp only
  split
  · next old hdev =>
    -- the old reference is dropped, and the map takes the new one over
    have hfree := (halloc.drop hdev).free old
    rw [bump_bump_neg] at hfree
    have hempty := (SortedMap.get?_erase c.map dev dev).trans (if_pos rfl)
    have hadd := hfree.add hempty k
    rw [bump_bump_neg] at hadd
    rw [← SortedMap.insert_erase]
    exact hadd
  · next hdev =>
    have hadd := halloc.add hdev k
    rwa [bump_bump_neg] at hadd

theorem Balanced.forgetPrinter (h : c.Balanced inHand) (dev : Bytes) :
    (c.forgetPrinter dev).Balanced inHand := by
  rw [Cache.forgetPrinter]
  dsimp only
  split
  · next k hdev =>
    have hdrop := (h.drop hdev).free k
    rwa [bump_bump_neg] at hdrop
  · exact h

end Cache

theorem handle_balanced {c : Cache} (h : c.Balanced 0) (w : World) (op : Op) :
    (handle w op c).2.Balanced 0 := by
  have hnew {k : Key} (hk : w.newKey c = some k) : c.refs k = 0 := by
    have hfilter := (Option.filter_eq_some_iff.1 hk).2
    exact of_decide_eq_true hfilter
  cases op with
  | lookup dev => exact h.lookup dev w.now
  | configDir => exact h
  | isRegularFile path => exact h
  | count dev => exact h
  | load dev path =>
    rw [handle]
    split
    · exact h
    · next k hk => exact h.load (hnew hk) dev
  | relook dev => exact h.relook dev
  | rememberMiss dev now => exact h
  | set dev pkey => exact h.setPrinterPubKey dev pkey
  | install dev certPem =>
    rw [handle]
    split
    · exact h
    · next k hk => exact h.install (hnew hk) dev
  | forget dev => exact h.forgetPrinter dev

theorem caller_balanced {c : Cache} (h : c.Balanced 0) (e : Caller) : (caller e c).Balanced 0 := by
  cases e with
  | capture k =>
    rw [caller]
    split
    · next hnew =>
      have hhand := (h.alloc hnew).hand k
      rwa [Cache.bump_bump_neg] at hhand
    · exact h
  | free k =>
    rw [caller]
    split
    · intro j
      have hj := h j
      simp only [Cache.free, Cache.bump_apply, hj]
      ring
    · exact h

/-! ## One printer -/

/-- What an operation does to the entry of a printer. -/
inductive Slot (dev : Bytes) (c c' : Cache) : Op → Prop
  | same (op : Op) (hmap : c'.map.get? dev = c.map.get? dev)
      (hcert : c'.certified dev = c.certified dev) : Slot dev c c' op
  /-- An entry is made where there is none. -/
  | filled (op : Op) (hempty : c.map.get? dev = none)
      (hcert : c'.certified dev = c.certified dev) : Slot dev c c' op
  | certified (certPem : Bytes) (k : Key) (hmap : c'.map.get? dev = some k)
      (hcert : c'.certified dev = some k) : Slot dev c c' (.install dev certPem)
  | forgotten (hcert : c'.certified dev = none) : Slot dev c c' (.forget dev)

section

variable {c : Cache} {dev : Bytes}

theorem slot_setPrinterPubKey (c : Cache) (dev dev' : Bytes) (pkey : Option Key) (op : Op) :
    Slot dev c (c.setPrinterPubKey dev' pkey) op := by
  cases pkey with
  | none => exact .same op rfl rfl
  | some k =>
    rw [Cache.setPrinterPubKey]
    dsimp only
    split
    · exact .same op rfl rfl
    · next hdev =>
      rw [Option.not_isSome_iff_eq_none] at hdev
      by_cases heq : dev = dev'
      · subst heq
        exact .filled op hdev rfl
      · exact .same op ((SortedMap.get?_insert _ _ _ _).trans (if_neg heq)) rfl

theorem slot_load (c : Cache) (dev dev' : Bytes) (k : Key) (op : Op) :
    Slot dev c (c.load dev' k) op := by
  -- neither the new key nor the reference that is dropped changes the map
  have hset := slot_setPrinterPubKey (c.alloc k) dev dev' (some k) op
  cases hset with
  | same _ hmap hcert => exact .same op hmap hcert
  | filled _ hempty hcert => exact .filled op hempty hcert
  | certified certPem k' hmap hcert => exact .certified certPem k' hmap hcert
  | forgotten hcert => exact .forgotten hcert

theorem slot_install (c : Cache) (dev dev' certPem : Bytes) (k : Key) :
    Slot dev c (c.install dev' k) (.install dev' certPem) := by
  have hmap : (c.install dev' k).map = c.map.insert dev' k := by
    rw [Cache.install]
    dsimp only
    split <;> rfl
  have hcert : (c.install dev' k).certified = Function.update c.certified dev' (some k) := by
    rw [Cache.install]
    dsimp only
    split <;> rfl
  by_cases heq : dev = dev'
  · subst heq
    refine .certified certPem k ?_ ?_
    · rw [hmap, SortedMap.get?_insert, if_pos rfl]
    · rw [hcert, Function.update_self]
  · refine .same _ ?_ ?_
    · rw [hmap, SortedMap.get?_insert, if_neg heq]
    · rw [hcert, Function.update_of_ne heq]

theorem slot_forgetPrinter (c : Cache) (dev dev' : Bytes) :
    Slot dev c (c.forgetPrinter dev') (.forget dev') := by
  have hmap : (c.forgetPrinter dev').map = c.map.erase dev' := by
    rw [Cache.forgetPrinter]
    dsimp only
    split
    · rfl
    · next hdev => exact (SortedMap.erase_of_get?_eq_none hdev).symm
  have hcert : (c.forgetPrinter dev').certified = Function.update c.certified dev' none := by
    rw [Cache.forgetPrinter]
    dsimp only
    split <;> rfl
  by_cases heq : dev = dev'
  · subst heq
    exact .forgotten (by rw [hcert, Function.update_self])
  · refine .same _ ?_ ?_
    · rw [hmap, SortedMap.get?_erase, if_neg heq]
    · rw [hcert, Function.update_of_ne heq]

theorem handle_slot (w : World) (op : Op) (c : Cache) (dev : Bytes) :
    Slot dev c (handle w op c).2 op := by
  cases op with
  | lookup dev' =>
    have hkeys : (c.lookup dev' w.now).2.map = c.map ∧
        (c.lookup dev' w.now).2.certified = c.certified := by
      rw [Cache.lookup]
      split
      · exact ⟨rfl, rfl⟩
      · split
        · split <;> exact ⟨rfl, rfl⟩
        · exact ⟨rfl, rfl⟩
    exact .same _ (congrArg (·.get? dev) hkeys.1) (congrFun hkeys.2 dev)
  | configDir => exact .same _ rfl rfl
  | isRegularFile path => exact .same _ rfl rfl
  | count dev' => exact .same _ rfl rfl
  | load dev' path =>
    rw [handle]
    split
    · exact .same _ rfl rfl
    · next k hk => exact slot_load c dev dev' k _
  | relook dev' =>
    have hkeys : (c.relook dev').2.map = c.map ∧ (c.relook dev').2.certified = c.certified := by
      rw [Cache.relook]
      dsimp only
      split <;> exact ⟨rfl, rfl⟩
    exact .same _ (congrArg (·.get? dev) hkeys.1) (congrFun hkeys.2 dev)
  | rememberMiss dev' now => exact .same _ rfl rfl
  | set dev' pkey => exact slot_setPrinterPubKey c dev dev' pkey _
  | install dev' certPem =>
    rw [handle]
    split
    · exact .same _ rfl rfl
    · next k hk => exact slot_install c dev dev' certPem k
  | forget dev' => exact slot_forgetPrinter c dev dev'

theorem caller_keys (e : Caller) (c : Cache) :
    (caller e c).map = c.map ∧ (caller e c).certified = c.certified := by
  cases e with
  | capture k =>
    rw [caller]
    split <;> exact ⟨rfl, rfl⟩
  | free k =>
    rw [caller]
    split <;> exact ⟨rfl, rfl⟩

/-! ## Device certificates and stored keys -/

/-- Neither is the printer forgotten, nor does it get a device certificate. -/
def Op.Keeps (dev : Bytes) (op : Op) : Prop :=
  op ≠ .forget dev ∧ ∀ certPem, op ≠ .install dev certPem

/-- The key of a device certificate is the one in the map. -/
def Cache.Certified (c : Cache) : Prop :=
  ∀ dev k, c.certified dev = some k → c.map.get? dev = some k

theorem handle_certified {c : Cache} (h : c.Certified) (w : World) (op : Op) :
    (handle w op c).2.Certified := by
  intro dev k hk
  cases handle_slot w op c dev with
  | same _ hmap hcert => rw [hmap, h dev k (hcert ▸ hk)]
  | filled _ hempty hcert =>
    have hmap := h dev k (hcert ▸ hk)
    rw [hempty] at hmap
    cases hmap
  | certified _ k' hmap hcert => rw [hmap, ← hcert, hk]
  | forgotten hcert =>
    rw [hcert] at hk
    cases hk

theorem handle_kept {c : Cache} {k : Key} (h : c.map.get? dev = some k) (w : World) {op : Op}
    (hop : op.Keeps dev) : (handle w op c).2.map.get? dev = some k := by
  cases handle_slot w op c dev with
  | same _ hmap hcert => exact hmap.trans h
  | filled _ hempty hcert =>
    rw [hempty] at h
    cases h
  | certified certPem k' hmap hcert => exact absurd rfl (hop.2 certPem)
  | forgotten hcert => exact absurd rfl hop.1

/-- What is in the map is found, whatever misses are remembered. -/
theorem lookup_of_stored {k : Key} (h : c.map.get? dev = some k) (now : ℤ) :
    (c.lookup dev now).1 = .hit k := by
  rw [Cache.lookup, h]

end

/-! ## Runs -/

section

variable (es : List (Turn θ World Call Caller))

theorem run_balanced : (run step (initial : State θ) es).shared.Balanced 0 := by
  refine Threads.run_shared (I := Cache.Balanced 0) (fun w op c _ h => handle_balanced h w op)
    (fun e c h => caller_balanced h e) ?_ (Threads.along_performs initial es)
  intro k
  rfl

theorem run_certified : (run step (initial : State θ) es).shared.Certified := by
  refine Threads.run_shared (I := Cache.Certified) (fun w op c _ h => handle_certified h w op)
    ?_ ?_ (Threads.along_performs initial es)
  · intro e c h dev k hk
    obtain ⟨hmap, hcert⟩ := caller_keys e c
    rw [hmap]
    exact h dev k (hcert ▸ hk)
  · intro dev k hk
    cases hk

theorem run_kept {dev : Bytes} {k : Key} {s : State θ} (hs : s.shared.map.get? dev = some k)
    (hes : Along step (Threads.Performs (Op.Keeps dev)) s es) :
    (run step s es).shared.map.get? dev = some k := by
  have hop (w : World) (op : Op) (c : Cache) (hop : op.Keeps dev)
      (h : c.map.get? dev = some k) : (handle w op c).2.map.get? dev = some k :=
    handle_kept h w hop
  refine Threads.run_shared (I := fun c => c.map.get? dev = some k) hop ?_ hs hes
  intro e c h
  rw [(caller_keys e c).1, h]

theorem step_get {dev : Bytes} (hdev : dev ≠ []) {s : State θ} {t : θ} {k : Key} (w : World)
    (hprog : s.prog t = getPrinterPubKey dev) (hk : s.shared.map.get? dev = some k) :
    (step s (.next t w)).prog t = pure (.key (some k)) := by
  rw [getPrinterPubKey, if_neg hdev] at hprog
  have hnext := Threads.step_next handle body caller s w hprog
  rw [handle, lookup_of_stored hk] at hnext
  exact hnext

end

/-- The state after a run from the start. -/
def after (es : List (Turn θ World Call Caller)) : State θ := run step initial es

/-- **Theorem.** After every run the key of a device certificate that is not forgotten is in the
map, a key that is stored is what every lookup returns until it is replaced by that of a device
certificate or forgotten, and the references on a key are those of the map and of the callers.
No lookup returns a key for the empty `dev_id`: `getPrinterPubKey` does not look for it. -/
theorem printerKeys_safe (es : List (Turn θ World Call Caller)) :
    (∀ dev k, (after es).shared.certified dev = some k →
      (after es).shared.map.get? dev = some k) ∧
    (∀ dev k es', dev ≠ [] → (after es).shared.map.get? dev = some k →
      Along step (Threads.Performs (Op.Keeps dev)) (after es) es' →
      ∀ t w, (after (es ++ es')).prog t = getPrinterPubKey dev →
        (after (es ++ es' ++ [.next t w])).prog t = pure (.key (some k))) ∧
    ∀ k, (after es).shared.refs k =
      (after es).shared.map.holders k + (after es).shared.handed k := by
  refine ⟨run_certified es, ?_, ?_⟩
  · intro dev k es' hdev hk hes t w hprog
    have hrun : after (es ++ es') = run step (after es) es' := run_append _ es es'
    have hkept := run_kept es' hk hes
    rw [← hrun] at hkept
    have hget := step_get hdev w hprog hkept
    rwa [after, run_append]
  · intro k
    exact (run_balanced es k).trans (add_zero _)

/-- A certificate is stored while another thread reads the file of its printer. -/
def slowRead : List (Turn ℕ World Call Caller) :=
  [.start 0 (.get [0x31]), .next 0 {}, .next 0 { configDir := [0x2f] },
    .next 0 { regularFile := true }, .next 0 {}, .start 1 (.setFromCertPem [0x31] [0x2d]),
    .next 1 { certKey := some 7 }, .next 0 { certKey := some 8 }]

theorem printerKeys_safe_slowRead :
    (after slowRead).shared.map.get? [0x31] = some 7 ∧
      (after (slowRead ++ [.next 0 {}, .start 0 (.get [0x31])] ++ [.next 0 {}])).prog 0 =
        pure (.key (some 7)) := by
  obtain ⟨hcertified, hstored, -⟩ := printerKeys_safe slowRead
  have hkey := hcertified [0x31] 7 rfl
  have hkeep : Along step (Threads.Performs (Op.Keeps [0x31])) (after slowRead)
      [.next 0 {}, .start 0 (.get [0x31])] := by
    refine ⟨?_, trivial, trivial⟩
    rintro op ⟨⟩
    constructor
    · intro h
      cases h
    · intro certPem h
      cases h
  exact ⟨hkey, hstored [0x31] 7 _ (by decide) hkey hkeep 0 {} rfl⟩

end BambooNet.CertStore
