import LintBridge.Path.Canonical

/-!
# LintBridge.Report.Grouping

The records of a report by file. A report may spell the same file in several ways; its records are
brought together under the canonical path, in the order in which they are reported.
-/

namespace LintBridge

/-- Records by file, each file being listed once. -/
abbrev Groups := List (Path × List Record)

namespace Groups

/-- Adds records to those of a file. -/
def add (file : Path) (records : List Record) : Groups → Groups
  | [] => [(file, records)]
  | (f, rs) :: rest =>
    if f = file then (f, rs ++ records) :: rest else (f, rs) :: add file records rest

/-- Brings the records of each file together. -/
def ofEntries (entries : List (Path × List Record)) : Groups :=
  entries.foldl (fun groups (file, records) => add file records groups) []

end Groups

namespace Report

/-- The records of a report by the file names that it gives. -/
def entries : Report → List (Str × List Record)
  | legacy violations _ => violations.map fun v => (v.file, [.violation v])
  | ranged files _ => files.map fun (file, findings) => (file, findings.map .finding)

/-- The records of a report by canonical path, name by name. -/
def resolvedEntries (report : Report) (disk : Disk) (workspace fallback : Option Path) :
    Except Fault (List (Path × List Record)) :=
  report.entries.mapM fun (name, records) => do
    let file ← disk.reportedAs workspace fallback name
    return (file, records)

/-- The records of a report by file. -/
def grouped (report : Report) (disk : Disk) (workspace fallback : Option Path) :
    Except Fault Groups :=
  (report.resolvedEntries disk workspace fallback).map Groups.ofEntries

/-- The records of a report that are about the file `target`; the file is listed even if there are
none, so that earlier records of it are replaced. -/
def groupedFor (report : Report) (disk : Disk) (workspace fallback : Option Path) (target : Path) :
    Except Fault Groups := do
  let target ← disk.canonical target
  let entries ← report.resolvedEntries disk workspace fallback
  return Groups.add target [] (Groups.ofEntries (entries.filter (·.1 = target)))

end Report

end LintBridge
