import BambooNet.Lib.Bytes
import Mathlib.Data.List.Infix

/-!
# Byte streams with start codes

Units of a stream are told apart by start codes, `00 00 01` or `00 00 00 01`. A zero byte right in
front of `00 00 01` belongs to the code; any more of them belong to the unit before it.

Main results: `exists_stream`, every byte string is a stream, and `stream_join`, units that hold no
start code and do not end in zero are the units of the stream they are joined to, whichever of the
two codes stands in front of each.
-/

namespace BambooNet.AnnexB

/-- There is no `00 00 01` in `s`. -/
def CodeFree (s : Bytes) : Prop := ¬ [0, 0, 1] <:+: s

instance decidableCodeFree (s : Bytes) : Decidable (CodeFree s) :=
  inferInstanceAs (Decidable (¬ [0, 0, 1] <:+: s))

/-- The start code behind `s`: the long one, unless `s` would have to give up a byte for it. -/
inductive StartCode (s : Bytes) : Bytes → Prop
  | long : StartCode s [0, 0, 0, 1]
  | short (h : s.getLast? ≠ some 0) : StartCode s [0, 0, 1]

/-- `Stream data lead units`: what stands in front of the first start code of `data`, and what
stands behind each. -/
inductive Stream : Bytes → Bytes → List Bytes → Prop
  | last {lead : Bytes} (hfree : CodeFree lead) : Stream lead lead []
  | code {lead sc data unit : Bytes} {units : List Bytes} (hfree : CodeFree lead)
      (hcode : StartCode lead sc) (hrest : Stream data unit units) :
      Stream (lead ++ (sc ++ data)) lead (unit :: units)

theorem codeFree_nil : CodeFree [] := by
  intro h
  cases List.infix_nil.1 h

theorem codeFree_cons {b : UInt8} {s : Bytes} :
    CodeFree (b :: s) ↔ ¬ [0, 0, 1] <+: b :: s ∧ CodeFree s := by
  rw [CodeFree, List.infix_cons_iff, not_or]
  exact Iff.rfl

theorem CodeFree.tail {b : UInt8} {s : Bytes} (h : CodeFree (b :: s)) : CodeFree s :=
  (codeFree_cons.1 h).2

theorem StartCode.length_pos {s sc : Bytes} (h : StartCode s sc) : 0 < sc.length := by
  cases h with
  | long => exact Nat.succ_pos _
  | short _ => exact Nat.succ_pos _

theorem StartCode.head {s sc : Bytes} (h : StartCode s sc) : ∃ t, sc = 0 :: 0 :: t := by
  cases h with
  | long => exact ⟨_, rfl⟩
  | short _ => exact ⟨_, rfl⟩

theorem StartCode.tail {b : UInt8} {s sc : Bytes} (h : StartCode (b :: s) sc) :
    StartCode s sc := by
  cases h with
  | long => exact .long
  | short h =>
    refine .short ?_
    cases s with
    | nil => simp
    | cons c s => rwa [List.getLast?_cons_cons] at h

/-- No start code begins before the one behind `s`. -/
theorem StartCode.not_prefix {b : UInt8} {s sc : Bytes} (h : StartCode (b :: s) sc)
    (hfree : CodeFree (b :: s)) (t : Bytes) :
    ¬ [0, 0, 1] <+: b :: (s ++ (sc ++ t)) ∧ ¬ [0, 0, 0, 1] <+: b :: (s ++ (sc ++ t)) := by
  have hwithin (k : Bytes) (hk : k.length ≤ (b :: s).length)
      (hp : k <+: b :: (s ++ (sc ++ t))) : k <+: b :: s :=
    List.prefix_of_prefix_length_le hp (List.prefix_append (b :: s) (sc ++ t)) hk
  constructor
  · intro hp
    by_cases hlen : [0, 0, 1].length ≤ (b :: s).length
    · exact (codeFree_cons.1 hfree).1 (hwithin _ hlen hp)
    · obtain ⟨u, rfl⟩ := h.head
      rcases s with _ | ⟨c, _ | ⟨d, s⟩⟩ <;> simp_all
  · intro hp
    by_cases hlen : [0, 0, 0, 1].length ≤ (b :: s).length
    · have hs := (List.cons_prefix_cons.1 (hwithin _ hlen hp)).2
      exact hfree.tail hs.isInfix
    · rcases s with _ | ⟨c, _ | ⟨d, _ | ⟨e, s⟩⟩⟩
      · cases h with
        | long => simp_all
        | short h => simp_all
      · obtain ⟨u, rfl⟩ := h.head
        simp_all
      · obtain ⟨u, rfl⟩ := h.head
        simp_all
      · simp at hlen

/-- A byte string holds no start code, or it has a first one. -/
theorem exists_first (data : Bytes) :
    CodeFree data ∨
      ∃ s sc t, data = s ++ (sc ++ t) ∧ CodeFree s ∧ StartCode s sc := by
  induction data with
  | nil => exact .inl codeFree_nil
  | cons b data ih =>
    by_cases hhere : [0, 0, 1] <+: b :: data
    · obtain ⟨t, ht⟩ := hhere
      exact .inr ⟨[], [0, 0, 1], t, ht.symm, codeFree_nil, .short (by simp)⟩
    · rcases ih with hfree | ⟨s, sc, t, rfl, hfree, hcode⟩
      · exact .inl (codeFree_cons.2 ⟨hhere, hfree⟩)
      · right
        cases s with
        | cons c s =>
          refine ⟨b :: c :: s, sc, t, rfl, codeFree_cons.2 ⟨fun h => hhere ?_, hfree⟩, ?_⟩
          · exact h.trans (List.prefix_append _ _)
          · cases hcode with
            | long => exact .long
            | short h => exact .short (by rwa [List.getLast?_cons_cons])
        | nil =>
          -- a zero in front of the short code makes it the long one
          by_cases hzero : b = 0 ∧ sc = [0, 0, 1]
          · obtain ⟨rfl, rfl⟩ := hzero
            exact ⟨[], [0, 0, 0, 1], t, rfl, codeFree_nil, .long⟩
          · refine ⟨[b], sc, t, rfl, codeFree_cons.2 ⟨fun h => ?_, codeFree_nil⟩, ?_⟩
            · have := h.length_le
              simp at this
            · cases hcode with
              | long => exact .long
              | short h =>
                refine .short ?_
                rw [List.getLast?_singleton]
                intro hb
                exact hzero ⟨Option.some.inj hb, rfl⟩

/-- **Every byte string is a stream.** -/
theorem exists_stream (data : Bytes) : ∃ lead units, Stream data lead units := by
  induction hn : data.length using Nat.strong_induction_on generalizing data with
  | _ n ih =>
    rcases exists_first data with hfree | ⟨s, sc, t, rfl, hfree, hcode⟩
    · exact ⟨data, [], .last hfree⟩
    · have hpos := hcode.length_pos
      have hlt : t.length < n := by
        rw [← hn, List.length_append, List.length_append]
        omega
      obtain ⟨unit, units, hrest⟩ := ih _ hlt t rfl
      exact ⟨s, unit :: units, .code hfree hcode hrest⟩

/-! ## Joining units -/

/-- A unit to be sent, and whether the long start code goes in front of it. -/
structure Sent where
  long : Bool
  unit : Bytes

/-- The unit can be told from its surroundings. -/
structure Sent.Plain (u : Sent) : Prop where
  ne : u.unit ≠ []
  free : CodeFree u.unit
  last : u.unit.getLast? ≠ some 0

def Sent.bytes (u : Sent) : Bytes := (if u.long then [0, 0, 0, 1] else [0, 0, 1]) ++ u.unit

theorem stream_behind {lead : Bytes} (hfree : CodeFree lead) (hlast : lead.getLast? ≠ some 0)
    {us : List Sent} (h : ∀ u ∈ us, u.Plain) :
    Stream (lead ++ us.flatMap Sent.bytes) lead (us.map Sent.unit) := by
  induction us generalizing lead with
  | nil =>
    rw [List.flatMap_nil, List.append_nil]
    exact .last hfree
  | cons u us ih =>
    obtain ⟨hu, hus⟩ := List.forall_mem_cons.1 h
    have hrest := ih hu.free hu.last hus
    have hcode : StartCode lead (if u.long then [0, 0, 0, 1] else [0, 0, 1]) := by
      cases u.long with
      | true => exact .long
      | false => exact .short hlast
    rw [List.flatMap_cons, Sent.bytes, List.append_assoc]
    exact .code hfree hcode hrest

/-- **Joined units come apart again.** -/
theorem stream_join {us : List Sent} (h : ∀ u ∈ us, u.Plain) :
    Stream (us.flatMap Sent.bytes) [] (us.map Sent.unit) := by
  have hlast : ([] : Bytes).getLast? ≠ some 0 := by simp
  exact stream_behind codeFree_nil hlast h

/-- With the long code in front of every unit, a unit may end in zero. -/
theorem stream_long {lead : Bytes} (hfree : CodeFree lead) {units : List Bytes}
    (h : ∀ u ∈ units, CodeFree u) :
    Stream (lead ++ units.flatMap fun u => [0, 0, 0, 1] ++ u) lead units := by
  induction units generalizing lead with
  | nil =>
    rw [List.flatMap_nil, List.append_nil]
    exact .last hfree
  | cons u units ih =>
    obtain ⟨hu, hunits⟩ := List.forall_mem_cons.1 h
    rw [List.flatMap_cons, List.append_assoc]
    exact .code hfree .long (ih hu hunits)

end BambooNet.AnnexB
