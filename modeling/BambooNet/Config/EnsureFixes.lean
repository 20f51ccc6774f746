import BambooNet.Config.Settings
import BambooNet.Lib.KeepEnds

/-!
# The fixes of the installer

`ensure_conf_fixes` edits `obn.conf` line by line. It scans the lines itself: `afterKey` is the
scan that its two readers of a line share. A true `block_cloud` is set to 0 and a missing one
appended, a missing `log_to_file` is appended, and a `client_name` as the old template had it is
replaced. In a file that the call has just created from the template, `log_to_file` is turned on.
-/

namespace BambooNet.Config

open CString (isSpace lower)

/-! ## Lines -/

def isEol (c : UInt8) : Bool := c == newline || c == 0x0d

def splitLinesKeepEnds (data : Bytes) : List Bytes := keepEnds newline data

def stripEol (line : Bytes) : Bytes := line.rdropWhile isEol

/-- Terminator of a line, a newline when absent. -/
def eolOf (line : Bytes) : Bytes :=
  if (stripEol line).length = line.length then [newline] else line.drop (stripEol line).length

/-- What follows `key =` in a line that is no comment, from the value on. -/
def afterKey (key content : Bytes) : Option Bytes :=
  let s := content.dropWhile isSpace
  if s = [] ∨ s.head? = some 0x23 then none
  else if key <+: s then
    match (s.drop key.length).dropWhile isSpace with
    | [] => none
    | c :: v => if c = 0x3d then some (v.dropWhile isSpace) else none
  else none

def parseBlockCloudLine (content : Bytes) : Option Bytes :=
  match afterKey (ascii "block_cloud") content with
  | none => none
  | some s =>
    let value := s.takeWhile (!isSpace ·)
    if value = [] then none else some value

/-- The span of the value, from its first byte to the one behind its last. -/
def findKeyValue (content key : Bytes) : Option (ℕ × ℕ) :=
  match afterKey key content with
  | none => none
  | some s =>
    let vstart := content.length - s.length
    let vend := vstart + (s.takeWhile fun c => !isSpace c && c != 0x23).length
    if vstart < vend then some (vstart, vend) else none

/-! ## The three fixes -/

inductive EnsureOutcome where
  | error
  | unchanged
  | created
  | set
  | appended
  deriving DecidableEq

def EnsureOutcome.code : EnsureOutcome → Int32
  | .error => -1
  | .unchanged => 0
  | .created => 1
  | .set => 2
  | .appended => 3

def kBlockCloudHeader : Bytes :=
  ascii "# 0 = talk to Bambu Cloud (required for cloud printing and for any\n" ++
    ascii "# printer that is not reachable over LAN). 1 = block cloud traffic.\n" ++
    ascii "block_cloud = 0\n"

/-- A block behind the last line, with a blank line between them. -/
def appendBlock (lines : List Bytes) (block : Bytes) : List Bytes :=
  match lines.getLast? with
  | none => [block]
  | some last =>
    let last := if last.getLast? = some newline then last else last ++ [newline]
    lines.dropLast ++ [last] ++ (if stripEol last = [] then [] else [[newline]]) ++ [block]

@[grind =] def fixLine (line : Bytes) : Bytes :=
  match parseBlockCloudLine (stripEol line) with
  | none => line
  | some value => if truthy value false then ascii "block_cloud = 0" ++ eolOf line else line

def fixLines (lines : List Bytes) : List Bytes × EnsureOutcome :=
  let values := lines.filterMap fun line => parseBlockCloudLine (stripEol line)
  if values = [] then (appendBlock lines kBlockCloudHeader, .appended)
  else (lines.map fixLine, if values.any (truthy · false) then .set else .unchanged)

/-- The first line that has `key`, with the value that `rewrite` gives it, if any. -/
@[grind =] def rewriteFirst (key : Bytes) (rewrite : Bytes → Option Bytes) :
    List Bytes → Option (List Bytes × Bool)
  | [] => none
  | line :: lines =>
    match findKeyValue (stripEol line) key with
    | none => (rewriteFirst key rewrite lines).map fun r => (line :: r.1, r.2)
    | some (vstart, vend) =>
      match rewrite (((stripEol line).take vend).drop vstart) with
      | none => some (line :: lines, false)
      | some value => some ((line.take vstart ++ value ++ line.drop vend) :: lines, true)

/-- The value for `log_to_file`. -/
def logValue (installerDefault : Bool) (value : Bytes) : Option Bytes :=
  if !installerDefault then none
  else if truthy value false then none
  else some (ascii "1")

def fixLogToFile (lines : List Bytes) (installerDefault : Bool) : List Bytes × Int32 :=
  match rewriteFirst (ascii "log_to_file") (logValue installerDefault) lines with
  | none => (appendBlock lines (ascii "log_to_file = 1\n"), 1)
  | some (lines, rewritten) => (lines, if rewritten then 1 else 0)

def unquote (value : Bytes) : Bytes :=
  let inner := (value.dropWhile (· == 0x22)).rdropWhile (· == 0x22)
  if inner = [] then value else inner

/-- The value for `client_name`. -/
def clientValue (value : Bytes) : Option Bytes :=
  if lower (unquote value) = ascii "openbamboonetworking" then some (ascii "BambuStudio") else none

def fixClientName (lines : List Bytes) : List Bytes × Int32 :=
  match rewriteFirst (ascii "client_name") clientValue lines with
  | none => (lines, 0)
  | some (lines, rewritten) => (lines, if rewritten then 1 else 0)

/-! ## The file -/

/-- `obn.conf`, if it is there, and whether it can be read and replaced. -/
structure Disk where
  conf : Option Bytes
  readable : Bool
  writable : Bool
  deriving DecidableEq

def Disk.readAll (disk : Disk) : Option Bytes := if disk.readable then disk.conf else none

def Disk.writeAtomic (disk : Disk) (content : Bytes) : Option Disk :=
  if disk.writable then some { disk with conf := some content } else none

/-- What the three fixes make of the lines, and the results in the bytes of a number. -/
def confFixes (present : Bool) (data : Bytes) : Bytes × Bool × Int32 :=
  let block := fixLines (splitLinesKeepEnds data)
  let log := fixLogToFile block.1 (!present)
  let client := fixClientName log.1
  let changed := block.2 == .set || block.2 == .appended || log.2 != 0 || client.2 != 0
  let outcome := if present then block.2 else .created
  (client.1.flatten, changed, outcome.code ||| log.2 <<< 8 ||| client.2 <<< 16)

/-- The result and the disk afterwards. `template` is the file that the library ships. -/
def ensureConfFixes (template confPath : Bytes) (disk : Disk) : Int32 × Disk :=
  if confPath = [] then (-1, disk)
  else
    match (if disk.conf.isSome then some disk else disk.writeAtomic template) with
    | none => (-1, disk)
    | some disk' =>
      match disk'.readAll with
      | none => (-1, disk')
      | some data =>
        let r := confFixes disk.conf.isSome data
        if r.2.1 then
          match disk'.writeAtomic r.1 with
          | none => (-1, disk')
          | some disk'' => (r.2.2, disk'')
        else (r.2.2, disk')

end BambooNet.Config
