import HeapAudit.Engine.Sessions

/-!
What the engine holds on its own account: the value stack, the last result, the master objects,
names of several kinds, the compiler's identifier table, and blocks for bookkeeping.

Main definitions
* `Engine.push`, `Engine.pop`, `Engine.setApplyReturn`: the interpreter's values.
* `Engine.setDefaultFail`: the default failure message and the string held for it.
* `Engine.newIdentTable`: the identifier table with its identifier blocks.
* `Engine.register`, `Engine.unregister`: subsystems with references of their own.

Main statements
* `isRegistered_register`, `isRegistered_unregister`: which names are registered afterwards.
-/

namespace HeapAudit

namespace Engine

/-! ## The interpreter -/

def push (e : Engine) (v : Value) : Engine :=
  { e with roots := { e.roots with stack := e.roots.stack ++ [v] } }

/-- The caller takes over the reference. -/
def pop (e : Engine) : Engine × Option Value :=
  ({ e with roots := { e.roots with stack := e.roots.stack.dropLast } }, e.roots.stack.getLast?)

def setApplyReturn (e : Engine) (v : Value) : Engine :=
  { e with roots := { e.roots with applyReturn := v } }.releaseValue e.roots.applyReturn

/-! ## Objects the engine knows -/

def setMaster (e : Engine) (ob : Handle) : Engine × Except EngineError Unit :=
  match e.object ob with
  | .error err => (e, .error err)
  | .ok _ =>
    ({ e.incRef ob with roots := { e.roots with master := some ob } }.releaseAll
      e.roots.master.toList, .ok ())

def setSimulOwner (e : Engine) (ob : Handle) : Engine × Except EngineError Unit :=
  match e.object ob with
  | .error err => (e, .error err)
  | .ok _ =>
    ({ e.incRef ob with roots := { e.roots with simulOwner := some ob } }.releaseAll
      e.roots.simulOwner.toList, .ok ())

def pushCommandGiver (e : Engine) (ob : Handle) : Engine × Except EngineError Unit :=
  match e.object ob with
  | .error err => (e, .error err)
  | .ok _ =>
    ({ e.incRef ob with
       roots := { e.roots with commandGivers := e.roots.commandGivers ++ [ob] } }, .ok ())

def popCommandGiver (e : Engine) : Engine :=
  { e with roots := { e.roots with commandGivers := e.roots.commandGivers.dropLast } }.releaseAll
    e.roots.commandGivers.getLast?.toList

/-! ## Names -/

def addConfigString (e : Engine) (text : String) : Engine × Handle :=
  let (e, h) := e.allocate .plainString (.text text) "config file"
  ({ e with roots := { e.roots with configStrings := e.roots.configStrings ++ [h] } }, h)

/-- The text of the shared string held for a default failure message. -/
def failText (text : String) : String := text ++ "\n"

/-- The shared string held for the default failure message, found by its text. -/
def defaultFailString? (e : Engine) : Option Handle :=
  e.roots.defaultFailMessage.bind fun text => e.strings.find? (failText text)

def setDefaultFail (e : Engine) (text : Option String) : Engine :=
  let held := e.defaultFailString?
  let e := { e with roots := { e.roots with defaultFailMessage := none } }.releaseAll held.toList
  match text with
  | none => e
  | some text =>
    let (e, _) := e.intern (failText text)
    { e with roots := { e.roots with defaultFailMessage := some text } }

def addSimulName (e : Engine) (name : String) : Engine × Handle :=
  let (e, h) := e.intern name
  ({ e with roots := { e.roots with simulNames := e.roots.simulNames ++ [h] } }, h)

def addPredefine (e : Engine) (name : String) : Engine × Handle :=
  let (e, h) := e.allocate .predefine (.text name) "predefines"
  ({ e with roots := { e.roots with predefines := e.roots.predefines ++ [h] } }, h)

def cacheAddressName (e : Engine) (name : String) : Engine × Handle :=
  let (e, h) := e.intern name
  ({ e with roots := { e.roots with addressNames := e.roots.addressNames ++ [h] } }, h)

/-! ## The identifier table -/

/-- Permanent identifiers get a block of their own. -/
def newIdent (e : Engine) (name : String) (kind : IdentKind) : Engine × IdentEntry :=
  if kind.isPermanent then
    let (e, h) := e.allocate .permIdent (.text name) "add_permanent_ident"
    (e, ⟨name, kind, some h⟩)
  else (e, ⟨name, kind, none⟩)

def insertIdents (e : Engine) (table : IdentTable) :
    List (String × IdentKind) → Engine × IdentTable
  | [] => (e, table)
  | (name, kind) :: rest =>
    let (e, entry) := e.newIdent name kind
    e.insertIdents (table.insert entry) rest

def newIdentTable (e : Engine) (buckets : Nat) (entries : List (String × IdentKind)) :
    Engine × Handle :=
  let (e, table) := e.insertIdents (.ofSize buckets) entries
  e.allocate .identTable (.identTable table) "init_identifiers"

/-! ## Bookkeeping -/

/-- A block without a payload. -/
def allocateBlock (e : Engine) (category : Category) (size : Nat) (description : String) :
    Engine × Handle :=
  let (heap, h) := e.heap.allocateSized category .blank size description
  (e.setHeap heap, h)

/-- Frees a block whatever its stored count; `false` if it is gone already. -/
def freeBlock (e : Engine) (h : Handle) : Engine × Bool :=
  match e.heap.remove h with
  | none => (e, false)
  | some (_, heap) => (e.setHeap heap, true)

/-! ## Subsystems -/

def isRegistered (e : Engine) (name : String) : Bool := e.providers.any fun p => p.name == name

/-- A provider takes the place of the one of the same name. -/
def register (e : Engine) (p : Provider) : Engine :=
  if e.isRegistered p.name then
    { e with providers := e.providers.map fun q => if q.name = p.name then p else q }
  else { e with providers := e.providers ++ [p] }

def unregister (e : Engine) (name : String) : Engine :=
  { e with providers := e.providers.filter fun p => p.name ≠ name }

theorem isRegistered_register (e : Engine) (p : Provider) (name : String) :
    (e.register p).isRegistered name = (p.name == name || e.isRegistered name) := by
  unfold register
  split
  · rename_i hp
    by_cases hn : p.name = name
    · subst hn
      simp only [isRegistered, List.any_eq_true, List.any_map] at hp ⊢
      obtain ⟨q, hq, hqn⟩ := hp
      simp only [beq_self_eq_true, Bool.true_or, List.any_eq_true]
      exact ⟨q, hq, by simp_all⟩
    · rw [beq_false_of_ne hn, Bool.false_or]
      simp only [isRegistered, List.any_map]
      congr 1
      funext q
      by_cases hq : q.name = p.name <;> simp [hq]
  · simp [isRegistered, Bool.or_comm]

theorem isRegistered_unregister (e : Engine) (name other : String) :
    (e.unregister name).isRegistered other = (other != name && e.isRegistered other) := by
  simp only [isRegistered, unregister, List.any_filter]
  by_cases ho : other = name
  · subst ho
    simp
  · simp
    grind

end Engine

end HeapAudit
