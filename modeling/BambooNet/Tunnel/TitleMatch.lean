import BambooNet.Lib.Decimal
import BambooNet.Lib.Runs
import BambooNet.Lib.SortedMap

/-!
# Finding a model by its title

A print that was started on the printer reports the title of its file, not the name. The newest
sliced files are walked until one has the title, the plate and an image of the plate. What is read
from a file is cached by path and time, and one search may spend a budget on reads.

**Theorem (`match_independent`).** Whatever was searched for before, a search finds the file that a
search with an empty cache and enough budget finds, or no file and reports an error. Over every
cache that holds only what the reader answers, the search either follows `uncachedMatch`, which
knows no cache and no budget, or runs out of budget (`searchLoop_cases`).
-/

namespace BambooNet.Tunnel.Title

/-! ## Listings -/

structure ModelFileEntry where
  name : Bytes
  path : Bytes
  time : ℤ
  deriving DecidableEq

/-- A listed file with the storage label it was listed under. -/
structure Candidate where
  file : ModelFileEntry
  storage : Bytes

def kTitleCandidateSuffix : Bytes := ascii ".gcode.3mf"

def isTitleCandidate (f : ModelFileEntry) : Bool :=
  kTitleCandidateSuffix.isSuffixOf f.name || kTitleCandidateSuffix.isSuffixOf f.path

/-- The files that are kept, each path once. -/
def firstOfPath : List Bytes → List Candidate → List Candidate
  | _, [] => []
  | seen, c :: cs =>
    if c.file.path ∈ seen then firstOfPath seen cs
    else c :: firstOfPath (c.file.path :: seen) cs

def mergedCandidates (listings : List (Bytes × List ModelFileEntry))
    (keep : ModelFileEntry → Bool) : List Candidate :=
  let order := firstOfPath [] (listings.flatMap fun l => (l.2.filter keep).map (⟨·, l.1⟩))
  order.mergeSort fun a b => b.file.time ≤ a.file.time

/-! ## Reads, budget and cache -/

structure MemberRead where
  /-- The printer has answered, with no data when it refuses. -/
  answered : Bool
  data : Bytes
  timedOut : Bool
  bytes : ℕ

/-- Reads a member of the file at a path of a storage. -/
abbrev MemberReader := Bytes → Bytes → Bytes → MemberRead

/-- Fetches the image of the plate; failures are appended to the text. -/
abbrev TileFetcher := ModelFileEntry → Bytes → Bytes → Bool × Bytes

def kModelMember : Bytes := ascii "3D/3dmodel.model"
def kSliceInfoMember : Bytes := ascii "Metadata/slice_info.config"

/-- How a member is read: `value(.., "Title")` and `sliced_plates`. -/
structure Metadata where
  title : Bytes → Bytes
  slicedPlates : Bytes → List ℤ

structure TitleBudget where
  readsLeft : ℤ
  bytesLeft : ℕ

def TitleBudget.exhausted (b : TitleBudget) : Bool := b.readsLeft ≤ 0 || b.bytesLeft = 0

def TitleBudget.charge (b : TitleBudget) (bytes : ℕ) : TitleBudget :=
  ⟨b.readsLeft - 1, b.bytesLeft - min bytes b.bytesLeft⟩

structure TitleFileInfo where
  title : Bytes := []
  platesKnown : Bool := false
  plates : List ℤ := []

structure TitleCache where
  files : SortedMap Bytes TitleFileInfo := ∅
  /-- Read once without a complete reply in time. -/
  timedOut : SortedMap Bytes Unit := ∅

/-- The cache of every printer. -/
abbrev Titles := SortedMap Bytes TitleCache

def Titles.cache (g : Titles) (printer : Bytes) : TitleCache := (g.get? printer).getD {}

def kMaxTitleCandidates : ℕ := 64
def kMaxTitlePrinters : ℕ := 64

/-- The key of a file in the cache. -/
def keyOf (path : Bytes) (time : ℤ) : Bytes := path ++ [0x01] ++ decimalInt time

def ModelFileEntry.key (f : ModelFileEntry) : Bytes := keyOf f.path f.time

/-- Only the entries of the candidates are kept. -/
def trim (g : Titles) (printer : Bytes) (order : List Candidate) : Titles :=
  let g := if kMaxTitlePrinters ≤ g.size ∧ g.get? printer = none then ∅ else g
  let cached := g.cache printer
  let kept := order.foldl (fun kept c =>
    { files := match cached.files.get? c.file.key with
        | some info => kept.files.insert c.file.key info
        | none => kept.files
      timedOut := match cached.timedOut.get? c.file.key with
        | some _ => kept.timedOut.insert c.file.key ()
        | none => kept.timedOut }) ({} : TitleCache)
  g.insert printer kept

/-! ## The search -/

/-- A call of `match_model_by_title`; `error` is the text before the call. -/
structure Fetch where
  listings : List (Bytes × List ModelFileEntry)
  printer : Bytes
  modelName : Bytes
  plateIdx : ℤ
  readMember : MemberReader
  fetchTile : TileFetcher
  budget : TitleBudget
  error : Bytes

def Fetch.order (q : Fetch) : List Candidate :=
  (mergedCandidates q.listings isTitleCandidate).take kMaxTitleCandidates

structure Search where
  titles : Titles
  budget : TitleBudget
  /-- Candidates whose title is known by now. -/
  checked : ℕ := 0
  tileFailed : Bool := false
  tileFailures : Bytes := []

/-- Why the walk ends early without a hit. -/
inductive Stop
  | outOfBudget
  | failed (error : Bytes)

section
variable (md : Metadata) (q : Fetch)

def Search.setCache (s : Search) (cache : TitleCache) : Search :=
  { s with titles := s.titles.insert q.printer cache }

def Search.store (s : Search) (c : Candidate) (info : TitleFileInfo) : Search :=
  let cache := s.titles.cache q.printer
  s.setCache q { cache with files := cache.files.insert c.file.key info }

/-- A title read without an answer. The second one without a complete reply in time makes the file
untitled. -/
def titleUnanswered (s : Search) (c : Candidate) (timedOut : Bool) : Search × Bytes :=
  let key := c.file.key
  let cache := s.titles.cache q.printer
  if !timedOut then (s, ascii "read failed")
  else if cache.files.get? key ≠ none then (s, ascii "no complete reply in time")
  else if cache.timedOut.get? key = none then
    (s.setCache q { cache with timedOut := cache.timedOut.insert key () },
      ascii "no complete reply in time")
  else
    (s.setCache q ⟨cache.files.insert key {}, cache.timedOut.erase key⟩,
      ascii "no complete reply twice, treated as untitled")

/-- The cached entry of a file, or its title read now. -/
def titleInfo (s : Search) (c : Candidate) : Search × Except Stop TitleFileInfo :=
  match (s.titles.cache q.printer).files.get? c.file.key with
  | some info => (s, .ok info)
  | none =>
    if s.budget.exhausted then (s, .error .outOfBudget)
    else
      let r := q.readMember c.file.path c.storage kModelMember
      let s := { s with budget := s.budget.charge r.bytes }
      if !r.answered then
        let (s, why) := titleUnanswered q s c r.timedOut
        (s, .error (.failed (ascii "3MF title read failed (" ++ c.file.path ++ ascii ": " ++ why ++
          ascii ")")))
      else
        let info : TitleFileInfo := { title := md.title r.data }
        (s.store q c info, .ok info)

/-- The entry of a file with its plates, read now when they are not known. -/
def plateInfo (s : Search) (c : Candidate) (info : TitleFileInfo) :
    Search × Except Stop TitleFileInfo :=
  if info.platesKnown then (s, .ok info)
  else if s.budget.exhausted then (s, .error .outOfBudget)
  else
    let r := q.readMember c.file.path c.storage kSliceInfoMember
    let s := { s with budget := s.budget.charge r.bytes }
    if !r.answered then
      (s, .error (.failed (ascii "3MF slice info read failed (" ++ c.file.path ++ ascii ")")))
    else
      let info := { info with plates := md.slicedPlates r.data, platesKnown := true }
      (s.store q c info, .ok info)

/-- The walk over the candidates. -/
def searchLoop : List Candidate → Search → Search × Except Stop (Option ModelFileEntry)
  | [], s => (s, .ok none)
  | c :: cs, s =>
    match titleInfo md q s c with
    | (s, .error stop) => (s, .error stop)
    | (s, .ok info) =>
      let s := { s with checked := s.checked + 1 }
      if info.title = [] ∨ info.title ≠ q.modelName then searchLoop cs s
      else
        match plateInfo md q s c info with
        | (s, .error stop) => (s, .error stop)
        | (s, .ok info) =>
          if q.plateIdx ∉ info.plates then searchLoop cs s
          else
            match q.fetchTile c.file c.storage s.tileFailures with
            | (true, _) => (s, .ok (some c.file))
            | (false, failures) =>
              searchLoop cs { s with tileFailed := true, tileFailures := failures }

structure MatchResult where
  hit : Option ModelFileEntry
  error : Bytes
  titles : Titles
  budget : TitleBudget

def matchModelByTitle (g : Titles) : MatchResult :=
  let order := q.order
  let init : Search := { titles := trim g q.printer order, budget := q.budget }
  let (s, end_) := searchLoop md q order init
  let tileError := ascii "SUB_FILE thumbnail failed (" ++ s.tileFailures ++ ascii ")"
  match end_ with
  | .ok (some f) => ⟨some f, q.error, s.titles, s.budget⟩
  | .ok none => ⟨none, if s.tileFailed then tileError else q.error, s.titles, s.budget⟩
  | .error (.failed error) => ⟨none, error, s.titles, s.budget⟩
  | .error .outOfBudget =>
    ⟨none, if s.tileFailed then tileError
      else ascii "3MF title pass out of budget (" ++ decimal (order.length - s.checked) ++
        ascii " of " ++ decimal order.length ++ ascii " files unchecked)", s.titles, s.budget⟩

end

/-! ## What the reader answers -/

/-- What the printers answer, by printer, path, time and member: nothing, or data. -/
abbrev Answers := Bytes → Bytes → ℤ → Bytes → Option Bytes

/-- A reader that gives these answers for the candidates and never times out. -/
def Follows (answers : Answers) (q : Fetch) : Prop :=
  ∀ c ∈ q.order, ∀ member ∈ [kModelMember, kSliceInfoMember],
    let r := q.readMember c.file.path c.storage member
    r.timedOut = false ∧
      (if r.answered then some r.data else none) = answers q.printer c.file.path c.file.time member

/-- The search without cache and budget. An unanswered read ends it with an error. -/
def uncachedMatch (answers : Answers) (md : Metadata) (q : Fetch) :
    List Candidate → Bytes → Except Unit (Option ModelFileEntry)
  | [], _ => .ok none
  | c :: cs, failures =>
    match answers q.printer c.file.path c.file.time kModelMember with
    | none => .error ()
    | some data =>
      if md.title data = [] ∨ md.title data ≠ q.modelName then
        uncachedMatch answers md q cs failures
      else
        match answers q.printer c.file.path c.file.time kSliceInfoMember with
        | none => .error ()
        | some data =>
          if q.plateIdx ∉ md.slicedPlates data then uncachedMatch answers md q cs failures
          else
            match q.fetchTile c.file c.storage failures with
            | (true, _) => .ok (some c.file)
            | (false, failures) => uncachedMatch answers md q cs failures

/-- A cache entry says what the reader answers for the file. -/
structure InfoOk (answers : Answers) (md : Metadata) (printer path : Bytes) (time : ℤ)
    (info : TitleFileInfo) : Prop where
  title : ∃ data, answers printer path time kModelMember = some data ∧ info.title = md.title data
  plates : info.platesKnown → ∃ data, answers printer path time kSliceInfoMember = some data ∧
    info.plates = md.slicedPlates data

/-- All cache entries do. -/
def CacheOk (answers : Answers) (md : Metadata) (g : Titles) : Prop :=
  ∀ printer key info, (g.cache printer).files.get? key = some info →
    ∃ path time, key = keyOf path time ∧ InfoOk answers md printer path time info

/-! ## The cache holds what the reader answers -/

theorem keyOf_inj {p p' : Bytes} {t t' : ℤ} (h : keyOf p t = keyOf p' t') : p = p' ∧ t = t' := by
  have hsep (t : ℤ) : (0x01 : UInt8) ∉ decimalInt t := fun hmem => by
    rcases isDigit_of_mem_decimalInt hmem with h | h <;> exact absurd h (by decide)
  have hlast {m d d' : Bytes} (h : 0x01 :: d = m ++ 0x01 :: d') (hd : 0x01 ∉ d) :
      m = [] ∧ d = d' := by
    cases m with
    | nil => exact ⟨rfl, (List.cons.inj h).2⟩
    | cons a m => exact absurd ((List.cons.inj h).2 ▸ by simp) hd
  rw [keyOf, keyOf, List.append_assoc, List.append_assoc] at h
  rcases List.append_eq_append_iff.mp h with ⟨m, rfl, hm⟩ | ⟨m, rfl, hm⟩
  · obtain ⟨rfl, hd⟩ := hlast hm (hsep t)
    exact ⟨(List.append_nil p).symm, decimalInt_injective hd⟩
  · obtain ⟨rfl, hd⟩ := hlast hm (hsep t')
    exact ⟨List.append_nil p', decimalInt_injective hd.symm⟩

section
variable {answers : Answers} {md : Metadata} {q : Fetch} {g : Titles} {s : Search} {c : Candidate}

@[simp] theorem cache_insert (g : Titles) (printer printer' : Bytes) (cache : TitleCache) :
    Titles.cache (g.insert printer cache) printer' =
      if printer' = printer then cache else g.cache printer' := by
  rw [Titles.cache, SortedMap.get?_insert]
  split <;> rfl

/-- All entries of one printer's cache say what the reader answers. -/
def FilesOk (answers : Answers) (md : Metadata) (printer : Bytes)
    (files : SortedMap Bytes TitleFileInfo) : Prop :=
  ∀ key info, files.get? key = some info →
    ∃ path time, key = keyOf path time ∧ InfoOk answers md printer path time info

theorem cacheOk_empty : CacheOk answers md ∅ := fun _ _ _ h => by cases h

theorem CacheOk.filesOk (h : CacheOk answers md g) (printer : Bytes) :
    FilesOk answers md printer (g.cache printer).files := h printer

theorem CacheOk.insert (h : CacheOk answers md g) {printer : Bytes} {cache : TitleCache}
    (hcache : FilesOk answers md printer cache.files) :
    CacheOk answers md (g.insert printer cache) := by
  intro printer' key info hinfo
  rw [cache_insert] at hinfo
  split at hinfo
  · next heq =>
    subst heq
    exact hcache key info hinfo
  · exact h printer' key info hinfo

theorem FilesOk.insert {printer : Bytes} {files : SortedMap Bytes TitleFileInfo}
    (h : FilesOk answers md printer files) {path : Bytes} {time : ℤ} {info : TitleFileInfo}
    (hinfo : InfoOk answers md printer path time info) :
    FilesOk answers md printer (files.insert (keyOf path time) info) := by
  intro key info' hget
  rw [SortedMap.get?_insert] at hget
  split at hget
  · next heq =>
    obtain rfl := Option.some.inj hget
    exact ⟨path, time, heq, hinfo⟩
  · exact h key info' hget

/-- The entry of a file says what the reader answers for that file. -/
theorem CacheOk.infoOk (h : CacheOk answers md g) {printer : Bytes} {f : ModelFileEntry}
    {info : TitleFileInfo} (hget : (g.cache printer).files.get? f.key = some info) :
    InfoOk answers md printer f.path f.time info := by
  obtain ⟨path, time, hkey, hinfo⟩ := h printer _ _ hget
  obtain ⟨rfl, rfl⟩ := keyOf_inj hkey
  exact hinfo

theorem cacheOk_trim (h : CacheOk answers md g) (printer : Bytes) (order : List Candidate) :
    CacheOk answers md (trim g printer order) := by
  rw [trim]
  obtain ⟨g', hg', hok⟩ : ∃ g',
      (if kMaxTitlePrinters ≤ g.size ∧ g.get? printer = none then ∅ else g) = g' ∧
        CacheOk answers md g' := by
    refine ⟨_, rfl, ?_⟩
    split
    · exact cacheOk_empty
    · exact h
  rw [hg']
  refine hok.insert ?_
  -- the entries of the candidates seen so far are kept
  have hfold (kept : TitleCache) (hkept : FilesOk answers md printer kept.files) :
      FilesOk answers md printer (order.foldl (fun kept c =>
        { files := match (g'.cache printer).files.get? c.file.key with
            | some info => kept.files.insert c.file.key info
            | none => kept.files
          timedOut := match (g'.cache printer).timedOut.get? c.file.key with
            | some _ => kept.timedOut.insert c.file.key ()
            | none => kept.timedOut }) kept).files := by
    induction order generalizing kept with
    | nil => exact hkept
    | cons c order ih =>
      refine ih _ ?_
      dsimp only
      split
      · next info hget => exact hkept.insert (hok.infoOk hget)
      · exact hkept
  exact hfold {} fun _ _ hget => by cases hget

/-- A budget that covers this many reads and bytes, with some of both to spare. -/
def Ample (b : TitleBudget) (reads bytes : ℕ) : Prop := reads < b.readsLeft ∧ bytes < b.bytesLeft

theorem Ample.not_exhausted {b : TitleBudget} {reads bytes : ℕ} (h : Ample b reads bytes) :
    b.exhausted = false := by
  obtain ⟨hreads, hbytes⟩ := h
  simp only [TitleBudget.exhausted, Bool.or_eq_false_iff, decide_eq_false_iff_not]
  omega

theorem Ample.charge {b : TitleBudget} {reads bytes bytes' : ℕ}
    (h : Ample b (reads + 1) (bytes + bytes')) : Ample (b.charge bytes) reads bytes' := by
  obtain ⟨hreads, hbytes⟩ := h
  simp only [Ample, TitleBudget.charge]
  omega

theorem Ample.mono {b : TitleBudget} {reads reads' bytes bytes' : ℕ} (h : Ample b reads bytes)
    (hreads : reads' ≤ reads) (hbytes : bytes' ≤ bytes) : Ample b reads' bytes' := by
  obtain ⟨h1, h2⟩ := h
  exact ⟨by omega, by omega⟩

/-! ## A search follows the uncached one -/

/-- Bytes that a member of a file costs. -/
def Fetch.cost (q : Fetch) (member : Bytes) (c : Candidate) : ℕ :=
  (q.readMember c.file.path c.storage member).bytes

/-- What `titleInfo` and `plateInfo` do: the cache stays right, a read is charged once, and the
result is what the reader answers, unless the budget is used up. -/
structure ReadOk (answers : Answers) (md : Metadata) (q : Fetch) (member : Bytes) (c : Candidate)
    (s : Search) (r : Search × Except Stop TitleFileInfo) : Prop where
  cache : CacheOk answers md r.1.titles
  failures : r.1.tileFailures = s.tileFailures
  budget : ∀ reads bytes, Ample s.budget (reads + 1) (q.cost member c + bytes) →
    Ample r.1.budget reads bytes
  outcome : match r.2 with
    | .ok info => InfoOk answers md q.printer c.file.path c.file.time info
    | .error .outOfBudget => s.budget.exhausted = true
    | .error (.failed error) =>
      answers q.printer c.file.path c.file.time member = none ∧ error ≠ []

theorem CacheOk.store (h : CacheOk answers md s.titles) {info : TitleFileInfo}
    (hinfo : InfoOk answers md q.printer c.file.path c.file.time info) :
    CacheOk answers md (s.store q c info).titles :=
  h.insert ((h.filesOk q.printer).insert hinfo)

theorem titleInfo_ok (hq : Follows answers q) (hc : c ∈ q.order)
    (hs : CacheOk answers md s.titles) :
    ReadOk answers md q kModelMember c s (titleInfo md q s c) := by
  obtain ⟨htimedOut, hanswer⟩ := hq c hc kModelMember List.mem_cons_self
  rw [titleInfo]
  split
  · next info hget =>
    exact ⟨hs, rfl, fun _ _ h => h.mono (Nat.le_succ _) (Nat.le_add_left _ _), hs.infoOk hget⟩
  split
  · next hexhausted =>
    exact ⟨hs, rfl, fun _ _ h => h.mono (Nat.le_succ _) (Nat.le_add_left _ _), hexhausted⟩
  dsimp only
  split
  · next hunanswered =>
    simp only [titleUnanswered, htimedOut]
    rw [if_neg (by simpa using hunanswered)] at hanswer
    exact ⟨hs, rfl, fun _ _ h => h.charge, hanswer.symm, by simp [ascii]⟩
  · next hanswered =>
    rw [if_pos (by simpa using hanswered)] at hanswer
    have hinfo : InfoOk answers md q.printer c.file.path c.file.time
        { title := md.title (q.readMember c.file.path c.storage kModelMember).data } :=
      ⟨⟨_, hanswer.symm, rfl⟩, fun h => by cases h⟩
    exact ⟨CacheOk.store hs hinfo, rfl, fun _ _ h => h.charge, hinfo⟩

theorem plateInfo_ok (hq : Follows answers q) (hc : c ∈ q.order)
    (hs : CacheOk answers md s.titles) {info : TitleFileInfo}
    (hinfo : InfoOk answers md q.printer c.file.path c.file.time info) :
    ReadOk answers md q kSliceInfoMember c s (plateInfo md q s c info) ∧
      ∀ info', (plateInfo md q s c info).2 = .ok info' → info'.platesKnown = true := by
  obtain ⟨htimedOut, hanswer⟩ :=
    hq c hc kSliceInfoMember (List.mem_cons_of_mem _ List.mem_cons_self)
  rw [plateInfo]
  split
  · next hknown =>
    refine ⟨⟨hs, rfl, fun _ _ h => h.mono (Nat.le_succ _) (Nat.le_add_left _ _), hinfo⟩, ?_⟩
    exact fun info' h => Except.ok.inj h ▸ hknown
  split
  · next hexhausted =>
    refine ⟨⟨hs, rfl, fun _ _ h => h.mono (Nat.le_succ _) (Nat.le_add_left _ _), hexhausted⟩, ?_⟩
    exact fun info' h => by cases h
  dsimp only
  split
  · next hunanswered =>
    rw [if_neg (by simpa using hunanswered)] at hanswer
    refine ⟨⟨hs, rfl, fun _ _ h => h.charge, hanswer.symm, by simp [ascii]⟩, ?_⟩
    exact fun info' h => by cases h
  · next hanswered =>
    rw [if_pos (by simpa using hanswered)] at hanswer
    have hinfo' : InfoOk answers md q.printer c.file.path c.file.time { info with
        plates := md.slicedPlates (q.readMember c.file.path c.storage kSliceInfoMember).data
        platesKnown := true } := ⟨hinfo.title, fun _ => ⟨_, hanswer.symm, rfl⟩⟩
    refine ⟨⟨CacheOk.store hs hinfo', rfl, fun _ _ h => h.charge, hinfo'⟩, ?_⟩
    exact fun info' h => Except.ok.inj h ▸ rfl

/-- Bytes that all members of these files cost. -/
def Fetch.totalCost (q : Fetch) (cs : List Candidate) : ℕ :=
  (cs.map fun c => q.cost kModelMember c + q.cost kSliceInfoMember c).sum

theorem totalCost_cons (q : Fetch) (c : Candidate) (cs : List Candidate) :
    q.totalCost (c :: cs) =
      q.cost kModelMember c + (q.cost kSliceInfoMember c + q.totalCost cs) := by
  rw [Fetch.totalCost, List.map_cons, List.sum_cons, Nat.add_assoc, Fetch.totalCost]

/-- The outcome of a walk is that of the uncached search, or the budget was not ample. -/
def LoopOk (answers : Answers) (md : Metadata) (q : Fetch) (cs : List Candidate) (s : Search)
    (r : Search × Except Stop (Option ModelFileEntry)) : Prop :=
  CacheOk answers md r.1.titles ∧
    match r.2 with
    | .ok hit => uncachedMatch answers md q cs s.tileFailures = .ok hit
    | .error .outOfBudget => ¬ Ample s.budget (2 * cs.length) (q.totalCost cs)
    | .error (.failed error) =>
      uncachedMatch answers md q cs s.tileFailures = .error () ∧ error ≠ []

/-- A candidate that is passed over leaves the outcome to the others. -/
theorem LoopOk.skip {cs : List Candidate} {s' : Search}
    {r : Search × Except Stop (Option ModelFileEntry)} (h : LoopOk answers md q cs s' r)
    (hmatch : uncachedMatch answers md q (c :: cs) s.tileFailures =
      uncachedMatch answers md q cs s'.tileFailures)
    (hbudget : Ample s.budget (2 * (cs.length + 1)) (q.totalCost (c :: cs)) →
      Ample s'.budget (2 * cs.length) (q.totalCost cs)) : LoopOk answers md q (c :: cs) s r := by
  refine ⟨h.1, ?_⟩
  have hout := h.2
  rw [hmatch]
  split at hout
  · exact hout
  · exact fun hample => hout (hbudget hample)
  · exact hout

theorem uncachedMatch_other {cs : List Candidate} {failures data : Bytes}
    (hdata : answers q.printer c.file.path c.file.time kModelMember = some data)
    (hother : md.title data = [] ∨ md.title data ≠ q.modelName) :
    uncachedMatch answers md q (c :: cs) failures = uncachedMatch answers md q cs failures := by
  rw [uncachedMatch, hdata]
  exact if_pos hother

theorem uncachedMatch_same {cs : List Candidate} {failures data : Bytes}
    (hdata : answers q.printer c.file.path c.file.time kModelMember = some data)
    (hsame : ¬ (md.title data = [] ∨ md.title data ≠ q.modelName)) :
    uncachedMatch answers md q (c :: cs) failures =
      match answers q.printer c.file.path c.file.time kSliceInfoMember with
      | none => .error ()
      | some data =>
        if q.plateIdx ∉ md.slicedPlates data then uncachedMatch answers md q cs failures
        else
          match q.fetchTile c.file c.storage failures with
          | (true, _) => .ok (some c.file)
          | (false, failures) => uncachedMatch answers md q cs failures := by
  rw [uncachedMatch, hdata]
  exact if_neg hsame

/-- A file with the title and known plates is passed over or decides the walk. -/
theorem LoopOk.tile {cs : List Candidate} {s' : Search} {info : TitleFileInfo} {data : Bytes}
    (ih : ∀ s : Search, CacheOk answers md s.titles →
      LoopOk answers md q cs s (searchLoop md q cs s))
    (hs' : CacheOk answers md s'.titles) (hfailures : s'.tileFailures = s.tileFailures)
    (hbudget : Ample s.budget (2 * (cs.length + 1)) (q.totalCost (c :: cs)) →
      Ample s'.budget (2 * cs.length) (q.totalCost cs))
    (hplates : info.plates = md.slicedPlates data)
    (huncached : uncachedMatch answers md q (c :: cs) s.tileFailures =
      if q.plateIdx ∉ md.slicedPlates data then uncachedMatch answers md q cs s.tileFailures
      else
        match q.fetchTile c.file c.storage s.tileFailures with
        | (true, _) => .ok (some c.file)
        | (false, failures) => uncachedMatch answers md q cs failures) :
    LoopOk answers md q (c :: cs) s
      (if q.plateIdx ∉ info.plates then searchLoop md q cs s'
      else
        match q.fetchTile c.file c.storage s'.tileFailures with
        | (true, _) => (s', .ok (some c.file))
        | (false, failures) =>
          searchLoop md q cs { s' with tileFailed := true, tileFailures := failures }) := by
  rw [hplates, hfailures]
  by_cases hplate : q.plateIdx ∉ md.slicedPlates data
  · rw [if_pos hplate] at huncached ⊢
    exact (ih s' hs').skip (by rw [huncached, hfailures]) hbudget
  · rw [if_neg hplate] at huncached ⊢
    obtain ⟨got, failures, htile⟩ : ∃ got failures,
      q.fetchTile c.file c.storage s.tileFailures = (got, failures) := ⟨_, _, rfl⟩
    rw [htile] at huncached ⊢
    cases got with
    | true => exact ⟨hs', huncached⟩
    | false =>
      exact (ih { s' with tileFailed := true, tileFailures := failures } hs').skip huncached hbudget

/-- **A search ends as the uncached one, or runs out of a budget that is not ample.** -/
theorem searchLoop_cases (hq : Follows answers q) {cs : List Candidate}
    (hcs : ∀ c ∈ cs, c ∈ q.order) (hs : CacheOk answers md s.titles) :
    LoopOk answers md q cs s (searchLoop md q cs s) := by
  induction cs generalizing s with
  | nil => exact ⟨hs, rfl⟩
  | cons c cs ih =>
    have hrest : ∀ s : Search, CacheOk answers md s.titles →
        LoopOk answers md q cs s (searchLoop md q cs s) :=
      fun _ hs => ih (fun c hc => hcs c (List.mem_cons_of_mem _ hc)) hs
    have hc := hcs c List.mem_cons_self
    have htitle := titleInfo_ok hq hc hs
    rw [searchLoop]
    obtain ⟨s1, res, hres⟩ : ∃ s1 res, titleInfo md q s c = (s1, res) := ⟨_, _, rfl⟩
    rw [hres] at htitle ⊢
    cases res with
    | error stop =>
      refine ⟨htitle.cache, ?_⟩
      cases stop with
      | outOfBudget =>
        exact fun h => absurd h.not_exhausted (by rw [htitle.outcome]; decide)
      | failed error =>
        exact ⟨by rw [uncachedMatch, htitle.outcome.1], htitle.outcome.2⟩
    | ok info =>
      obtain ⟨data, hdata, hinfo⟩ := htitle.outcome.title
      -- both reads of this file are paid for
      have hcost (h : Ample s.budget (2 * (cs.length + 1)) (q.totalCost (c :: cs))) :
          Ample s1.budget (2 * cs.length + 1) (q.cost kSliceInfoMember c + q.totalCost cs) :=
        htitle.budget _ _ (h.mono (by omega) (totalCost_cons q c cs).ge)
      dsimp only
      split
      · next hother =>
        refine (hrest { s1 with checked := s1.checked + 1 } htitle.cache).skip ?_
          fun h => (hcost h).mono (Nat.le_succ _) (Nat.le_add_left _ _)
        rw [uncachedMatch_other hdata (by rwa [← hinfo])]
        exact congrArg _ htitle.failures.symm
      · next hsame =>
        have huncached := @uncachedMatch_same answers md q c cs s.tileFailures data hdata
          (by rwa [← hinfo])
        obtain ⟨hplate, hknown⟩ := @plateInfo_ok answers md q
          { s1 with checked := s1.checked + 1 } c hq hc htitle.cache info htitle.outcome
        obtain ⟨s2, res, hres⟩ : ∃ s2 res,
          plateInfo md q { s1 with checked := s1.checked + 1 } c info = (s2, res) := ⟨_, _, rfl⟩
        rw [hres] at hplate hknown ⊢
        cases res with
        | error stop =>
          refine ⟨hplate.cache, ?_⟩
          cases stop with
          | outOfBudget =>
            exact fun h => absurd (hcost h).not_exhausted (by rw [hplate.outcome]; decide)
          | failed error => exact ⟨by rw [huncached, hplate.outcome.1], hplate.outcome.2⟩
        | ok info' =>
          obtain ⟨plates, hplates, hinfo'⟩ := hplate.outcome.plates (hknown info' rfl)
          rw [hplates] at huncached
          exact LoopOk.tile hrest hplate.cache (hplate.failures.trans htitle.failures)
            (fun h => hplate.budget _ _ (hcost h)) hinfo' huncached

/-- The file that the uncached search finds. -/
def uncachedHit (answers : Answers) (md : Metadata) (q : Fetch) : Option ModelFileEntry :=
  match uncachedMatch answers md q q.order [] with
  | .ok hit => hit
  | .error () => none

theorem match_cases (hq : Follows answers q) (hg : CacheOk answers md g) :
    CacheOk answers md (matchModelByTitle md q g).titles ∧
    ((matchModelByTitle md q g).hit = uncachedHit answers md q ∨
      ¬ Ample q.budget (2 * q.order.length) (q.totalCost q.order) ∧
      (matchModelByTitle md q g).hit = none ∧ (matchModelByTitle md q g).error ≠ []) := by
  have hloop := @searchLoop_cases answers md q
    { titles := trim g q.printer q.order, budget := q.budget } hq q.order (fun _ h => h)
    (cacheOk_trim hg q.printer q.order)
  obtain ⟨s, end_, hend⟩ : ∃ s end_, searchLoop md q q.order
    { titles := trim g q.printer q.order, budget := q.budget } = (s, end_) := ⟨_, _, rfl⟩
  rw [hend] at hloop
  obtain ⟨hcache, hout⟩ := hloop
  unfold matchModelByTitle uncachedHit
  simp only [hend]
  cases end_ with
  | ok hit =>
    have hhit : uncachedMatch answers md q q.order [] = .ok hit := hout
    rw [hhit]
    cases hit <;> exact ⟨hcache, .inl rfl⟩
  | error stop =>
    cases stop with
    | outOfBudget =>
      refine ⟨hcache, .inr ⟨hout, rfl, ?_⟩⟩
      dsimp only
      split <;> simp [ascii]
    | failed error =>
      have hfail : uncachedMatch answers md q q.order [] = .error () := hout.1
      rw [hfail]
      exact ⟨hcache, .inl rfl⟩

/-- The uncached search does not depend on the reader, the budget and the text before the call. -/
theorem uncachedMatch_congr (readMember : MemberReader) (budget : TitleBudget) (error : Bytes)
    (cs : List Candidate) (failures : Bytes) :
    uncachedMatch answers md
      { q with readMember := readMember, budget := budget, error := error } cs failures =
        uncachedMatch answers md q cs failures := by
  induction cs generalizing failures with
  | nil => rfl
  | cons c cs ih => simp only [uncachedMatch, ih]

end

/-- The caches after a search. -/
def step (md : Metadata) (g : Titles) (q : Fetch) : Titles := (matchModelByTitle md q g).titles

/-- **The result does not depend on what was searched for before.** After any searches with readers
that give the same answers, a search finds the file that is found with an empty cache and an ample
budget, or no file and reports an error. -/
theorem match_independent {answers : Answers} {md : Metadata} {calls : List Fetch}
    (hcalls : ∀ call ∈ calls, Follows answers call) {q : Fetch} (hq : Follows answers q)
    {readMember : MemberReader} {budget : TitleBudget} {q' : Fetch}
    (hq' : q' = { q with readMember := readMember, budget := budget })
    (hfollows : Follows answers q')
    (hample : Ample q'.budget (2 * q'.order.length) (q'.totalCost q'.order)) :
    let r := matchModelByTitle md q (run (step md) ∅ calls)
    let r' := matchModelByTitle md q' ∅
    r.hit = r'.hit ∨ r.hit = none ∧ r.error ≠ [] := by
  intro r r'
  have hg : CacheOk answers md (run (step md) ∅ calls) :=
    @run_invariant _ _ (step md) (CacheOk answers md) (fun _ q => Follows answers q)
      (fun _ _ hg hq => (match_cases hq hg).1) _ _ cacheOk_empty (Along.of_forall hcalls ∅)
  have hr' : r'.hit = uncachedHit answers md q' :=
    (match_cases hfollows cacheOk_empty).2.resolve_right fun h => h.1 hample
  have hsame : uncachedHit answers md q' = uncachedHit answers md q := by
    subst hq'
    unfold uncachedHit
    rw [uncachedMatch_congr]
    rfl
  rcases (match_cases hq hg).2 with hr | ⟨-, hnone, herror⟩
  · exact .inl (hr.trans (hsame.symm.trans hr'.symm))
  · exact .inr ⟨hnone, herror⟩

/-- Two sliced files, the newer first. -/
def newer : ModelFileEntry := ⟨ascii "a.gcode.3mf", ascii "/a.gcode.3mf", 6⟩
def older : ModelFileEntry := ⟨ascii "b.gcode.3mf", ascii "/b.gcode.3mf", 5⟩

/-- Both files are called `Cube`; the newer one has plate 2, the older one plate 1. -/
def cubeMember (path member : Bytes) : Bytes :=
  if member = kModelMember then ascii "Cube"
  else if path = newer.path then ascii "2" else ascii "1"

/-- A search for plate 1. -/
def cubeFetch (budget : TitleBudget) : Fetch where
  listings := [(ascii "udisk", [newer]), (ascii "internal", [older])]
  printer := ascii "p"
  modelName := ascii "Cube"
  plateIdx := 1
  readMember := fun path _ member => ⟨true, cubeMember path member, false, 4⟩
  fetchTile := fun _ _ failures => (true, failures)
  budget := budget
  error := []

def cubeAnswers : Answers := fun _ path _ member => some (cubeMember path member)

def cubeMetadata : Metadata := ⟨id, fun data => if data = ascii "1" then [1] else [2]⟩

theorem follows_cubeFetch (budget : TitleBudget) : Follows cubeAnswers (cubeFetch budget) :=
  fun _ _ _ _ => ⟨rfl, rfl⟩

theorem order_cubeFetch (budget : TitleBudget) : (cubeFetch budget).order =
    [⟨newer, ascii "udisk"⟩, ⟨older, ascii "internal"⟩] := by
  have hnewer : isTitleCandidate newer = true := by decide
  have holder : isTitleCandidate older = true := by decide
  have hpaths : older.path ≠ newer.path := by decide
  have hsorted : [⟨newer, ascii "udisk"⟩, ⟨older, ascii "internal"⟩].Pairwise
      fun a b : Candidate => decide (b.file.time ≤ a.file.time) = true := by
    simp [newer, older]
  simp only [Fetch.order, mergedCandidates, cubeFetch, List.flatMap_cons, List.flatMap_nil,
    List.filter_cons, hnewer, holder, if_true, List.filter_nil, List.map_cons, List.map_nil,
    List.append_nil, List.cons_append, List.nil_append, firstOfPath, List.not_mem_nil, if_false,
    List.mem_singleton, hpaths]
  rw [List.mergeSort_of_pairwise hsorted]
  rfl

/-- A search that can pay for the newer file only, and the next one that finds it in the cache. -/
theorem hit_cubeFetch :
    (matchModelByTitle cubeMetadata (cubeFetch ⟨2, 9⟩) ∅).hit = none ∧
    (matchModelByTitle cubeMetadata (cubeFetch ⟨2, 9⟩)
      (run (step cubeMetadata) ∅ [cubeFetch ⟨2, 9⟩])).hit = some older := by
  simp only [matchModelByTitle, step, run, List.foldl, order_cubeFetch]
  decide +kernel

theorem match_independent_cube :
    let r := matchModelByTitle cubeMetadata (cubeFetch ⟨2, 9⟩)
      (run (step cubeMetadata) ∅ [cubeFetch ⟨2, 9⟩])
    let r' := matchModelByTitle cubeMetadata (cubeFetch ⟨9, 99⟩) ∅
    r.hit = some older ∧ r.hit = r'.hit := by
  intro r r'
  have hhit : r.hit = some older := hit_cubeFetch.2
  have hsame : r.hit = r'.hit ∨ r.hit = none ∧ r.error ≠ [] := by
    refine match_independent (List.forall_mem_singleton.mpr (follows_cubeFetch ⟨2, 9⟩))
      (follows_cubeFetch ⟨2, 9⟩) rfl (follows_cubeFetch ⟨9, 99⟩) ?_
    rw [order_cubeFetch]
    exact ⟨by decide, by decide⟩
  refine ⟨hhit, hsame.resolve_right fun hnone => ?_⟩
  exact absurd (hhit.symm.trans hnone.1) (Option.some_ne_none _)

end BambooNet.Tunnel.Title
