import HeapAudit.Audit.Report
import HeapAudit.Json.Reader

/-!
Reports as JSON documents. A finding is an object tagged with its kind.
-/

namespace HeapAudit

def Tally.toJson (t : Tally) : Json :=
  .record [("blocks", .ofNat t.blocks), ("bytes", .ofNat t.bytes)]

def Census.toJson (c : Census) : Json :=
  .record
    [("live_blocks", .ofNat c.liveBlocks), ("free_slots", .ofNat c.freeSlots),
     ("total_slots", .ofNat c.totalSlots), ("total_bytes", .ofNat c.totalBytes),
     ("by_category", .record (c.byCategory.map fun (category, t) => (category.name, t.toJson)))]

def Handle.toJson (h : Handle) : Json :=
  .record [("index", .ofNat h.index), ("generation", .ofNat h.generation)]

namespace Finding

/-- The kind by which a finding is tagged. -/
def kind : Finding → String
  | countMismatch .. => "count_mismatch"
  | pinMismatch .. => "function_ref_mismatch"
  | sizeMismatch .. => "size_mismatch"
  | stringLength .. => "string_length"
  | cardinality .. => "cardinality"
  | orphan .. => "orphan"
  | unexpected .. => "unexpected"
  | aggregate .. => "aggregate"
  | mapTables .. => "map_tables"
  | stringStat .. => "string_stat"
  | notInObjectList .. => "not_in_object_list"
  | swapped .. => "swapped"
  | dangling .. => "dangling"
  | wrongCategory .. => "wrong_category"
  | multipleOwners .. => "multiple_owners"
  | exempt .. => "exempt"

def fields : Finding → List (String × Json)
  | countMismatch category description stored expected contents =>
    [("category", .text category.name), ("description", .text description),
     ("stored", .ofNat stored), ("expected", .ofNat expected),
     ("contents", .ofOption .text contents)]
  | pinMismatch program stored expected =>
    [("program", .text program), ("stored", .ofNat stored), ("expected", .ofNat expected)]
  | sizeMismatch category description recorded implied =>
    [("category", .text category.name), ("description", .text description),
     ("recorded", .ofNat recorded), ("implied", .ofNat implied)]
  | stringLength text declared actual =>
    [("text", .text text), ("declared", .ofNat declared), ("actual", .ofNat actual)]
  | cardinality category count ceiling =>
    [("category", .text category.name), ("count", .ofNat count), ("ceiling", .ofNat ceiling)]
  | orphan category description | exempt category description =>
    [("category", .text category.name), ("description", .text description)]
  | unexpected category description =>
    [("category", .text category.name), ("description", .text description),
     ("tag", .ofNat category.tag)]
  | aggregate gauge stored actual =>
    [("counter", .text gauge.label), ("stored", .ofNat stored), ("actual", .ofNat actual)]
  | stringStat gauge stored actual =>
    [("counter", .text gauge.label), ("stored", .ofNat stored), ("actual", .ofNat actual)]
  | mapTables tables mappings => [("tables", .ofNat tables), ("mappings", .ofNat mappings)]
  | notInObjectList name | swapped name => [("name", .text name)]
  | dangling origin target expected =>
    [("origin", .text origin.text), ("target", target.toJson), ("expected", .text expected.name)]
  | wrongCategory origin target expected found =>
    [("origin", .text origin.text), ("target", target.toJson), ("expected", .text expected.name),
     ("found", .text found.name)]
  | multipleOwners category description origin =>
    [("category", .text category.name), ("description", .text description),
     ("origin", .text origin.text)]

def toJson (f : Finding) : Json := .record (("kind", .text f.kind) :: f.fields)

end Finding

namespace Report

def fields (r : Report) : List (String × Json) :=
  [("text", .text r.text), ("diagnostics", .array (r.findings.map Finding.toJson)),
   ("blocks_scanned", .ofNat r.blocksScanned), ("exempted", .ofNat r.exempted),
   ("summary", .ofOption Census.toJson r.summary)]

def toJson (r : Report) : Json := .record r.fields

end Report

end HeapAudit
