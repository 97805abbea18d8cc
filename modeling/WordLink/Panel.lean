import WordLink.Json.Reader
import WordLink.Description
import WordLink.Panel.Command

/-!
# Panels

A panel is a roster of named listeners together with the gauges put up on it and a log of what
the listeners were told. A listener is found by its position; positions are never given out
again, so that a gauge taken down in the middle of a dispatch still gets the rest of it.

Calling a listener may set off commands of its script, and those may call other listeners. The
panel works this off as an agenda, latest matters first (`run`). The agenda comes to an end since
each call uses up a part of a script.
-/
namespace WordLink

inductive Role where
  | plain
  | gauge (gauge : Gauge)

structure Listener where
  name : String
  role : Role := .plain
  /-- Whether the listener logs what it is told and follows its script. -/
  outspoken : Bool := true
  script : List (Stretch Command) := []

structure Mount where
  listener : Nat
  attached : Bool
  firstId : RegistrationId
  wordCount : Nat
  boundaryId : Option RegistrationId

structure Panel where
  roster : Roster Nat := {}
  listeners : Array Listener := #[]
  /-- The latest number given out under each name. -/
  ids : List (String × RegistrationId) := []
  gauges : List (String × Mount) := []
  log : Array Entry := #[]

inductive Task where
  | call (listener : Nat) (event : Event)
  /-- A command of the script of the listener with this name. -/
  | act (name : String) (command : Command)
  /-- The answer to such a command, once all that it set off is done. -/
  | note (name : String) (reply : Reply)

namespace Listener

/-- What the listener has to say about an event, if anything. -/
def remark? (l : Listener) (event : Event) : Option Entry :=
  match l.role, event with
  | .plain, .word address data => some (.word l.name address data)
  | .plain, .boundary => some (.boundary l.name)
  | .gauge (.integer g), .word _ data =>
    if l.outspoken then some (.integer l.name (g.field.extract data)) else none
  | .gauge (.text g), .boundary =>
    if l.outspoken && g.pending then some (.text l.name g.collected) else none
  | .gauge (.integer _), .boundary => none
  | .gauge (.text _), .word _ _ => none

def hear (event : Event) (l : Listener) : Listener :=
  { l with
    role := match l.role with
      | .plain => .plain
      | .gauge g => .gauge (g.hear event)
    script := if (l.remark? event).isSome then Stretch.spend l.script else l.script }

def actions (l : Listener) : List Task := (Stretch.current l.script).map (Task.act l.name)

end Listener

namespace Panel

def numbered (name : String) (i : Nat) : String := name ++ toString i

def addListener (p : Panel) (l : Listener) : Panel := { p with listeners := p.listeners.push l }

def mount (p : Panel) (l : Listener) (g : Gauge) (attached : Bool) : Panel × Mount :=
  let listener := p.listeners.size
  let firstId := p.roster.nextId
  let roster := p.roster.subscribeAll g.addresses listener
  let wordCount := g.addresses.length
  let p := p.addListener { l with role := .gauge g }
  match g with
  | .integer _ =>
    ({ p with roster }, { listener, attached, firstId, wordCount, boundaryId := none })
  | .text _ =>
    ({ p with roster := roster.subscribeBoundary listener },
      { listener, attached, firstId, wordCount, boundaryId := some roster.nextId })

def unmount (p : Panel) (m : Mount) : Panel :=
  let roster := p.roster.unsubscribeRun m.firstId m.wordCount
  match m.boundaryId with
  | some id => { p with roster := roster.unsubscribeBoundary id }
  | none => { p with roster }

def takeDown (p : Panel) (name : String) : Panel :=
  match p.gauges.lookup name with
  | some m =>
    let p := p.unmount m
    { p with gauges := p.gauges.filter fun entry => entry.1 != name }
  | none => p

/-- Gives a gauge a name; one that had the name before is taken down. -/
def putUp (p : Panel) (name : String) (m : Mount) : Panel :=
  let p := p.takeDown name
  { p with gauges := (name, m) :: p.gauges }

def follow (p : Panel) (l : Listener) (field : Field) (attached : Bool) :
    Panel × Except FieldError Mount :=
  match field.gauge with
  | .ok g =>
    let (p, m) := p.mount l g attached
    (p, .ok m)
  | .error cause => (p, .error cause)

/-- Puts up gauges one after the other; at the first failure those put up are taken back. -/
def followAll (p : Panel) (name : String) (done : List Mount) :
    List Field → Panel × Except FieldError (List Mount)
  | [] => (p, .ok done.reverse)
  | field :: rest =>
    match p.follow { name, outspoken := false } field true with
    | (p, .ok m) => followAll p name (m :: done) rest
    | (p, .error cause) => (done.foldl unmount p, .error cause)

def register (p : Panel) (name : String) (id : RegistrationId) : Panel :=
  { p with ids := (name, id) :: p.ids }

def gaugeAt (p : Panel) (m : Mount) : Option Gauge :=
  match p.listeners[m.listener]? with
  | some { role := .gauge g, .. } => some g
  | _ => none

def gauge? (p : Panel) (name : String) : Option (Gauge × Bool) := do
  let m ← p.gauges.lookup name
  let g ← p.gaugeAt m
  return (g, m.attached)

def putUpAll (p : Panel) (name : String) (mounts : List Mount) : Panel :=
  mounts.zipIdx.foldl (fun p (m, i) => p.putUp (numbered name i) m) p

/-- Carries out a command as far as the panel itself is concerned. -/
def perform (p : Panel) : Command → Panel × Reply
  | .subscribe name address script =>
    let id := p.roster.nextId
    let roster := p.roster.subscribe address p.listeners.size
    (({ p with roster }.addListener { name, script }).register name id, .id id)
  | .subscribeShared name addresses script =>
    let first := p.roster.nextId
    let roster := p.roster.subscribeAll addresses p.listeners.size
    let ids := List.range' first addresses.length
    (ids.zipIdx.foldl (fun p (id, i) => p.register (numbered name i) id)
      ({ p with roster }.addListener { name, script }), .ids ids)
  | .subscribeBoundary name script =>
    let id := p.roster.nextId
    let roster := p.roster.subscribeBoundary p.listeners.size
    (({ p with roster }.addListener { name, script }).register name id, .id id)
  | .unsubscribe name =>
    match p.ids.lookup name with
    | some id => ({ p with roster := p.roster.unsubscribe id }, .flag (p.roster.hasWord id))
    | none => (p, .nothing)
  | .unsubscribeBoundary name =>
    match p.ids.lookup name with
    | some id =>
      ({ p with roster := p.roster.unsubscribeBoundary id }, .flag (p.roster.hasBoundary id))
    | none => (p, .nothing)
  | .compareIds name other =>
    match p.ids.lookup name, p.ids.lookup other with
    | some a, some b => (p, .order (compare a b))
    | _, _ => (p, .nothing)
  | .isSubscribed address => (p, .flag (p.roster.isSubscribed address))
  | .dispatch _ => (p, .nothing)
  | .follow name field outspoken script =>
    match p.follow { name, outspoken, script } field false with
    | (p, .ok m) => (p.putUp name m, .nothing)
    | (p, .error cause) => (p, .refused (.invalidField cause))
  | .attach name definition =>
    match Field.parse definition with
    | .error e => (p, .refused e)
    | .ok field =>
      match p.follow { name, outspoken := false } field true with
      | (p, .ok m) => (p.putUp name m, .nothing)
      | (p, .error cause) => (p, .refused (.invalidField cause))
  | .attachAll name definitions =>
    match Field.parseList definitions with
    | .error e => (p, .refused e)
    | .ok fields =>
      match p.followAll name [] fields with
      | (p, .ok mounts) => (p.putUpAll name mounts, .count mounts.length)
      | (p, .error cause) => (p, .refused (.invalidField cause))
  | .drop name => (p.takeDown name, .flag (p.gauges.lookup name).isSome)
  | .query name =>
    match p.gauge? name with
    | some (g, attached) => (p, .gauge g attached)
    | none => (p, .nothing)
  | .describeGauge name =>
    match p.gauge? name with
    | some (g, attached) => (p, .text (if attached then g.describeWithKind else g.describe))
    | none => (p, .nothing)
  | .describeRoster => (p, .text p.roster.describe)

def calls (p : Panel) (event : Event) : List Task :=
  match event with
  | .word address _ => (p.roster.wordListeners address).map (Task.call · event)
  | .boundary => p.roster.boundaryListeners.map (Task.call · event)

def summons (p : Panel) : Command → List Task
  | .dispatch event => p.calls event
  | _ => []

def write (p : Panel) (entry : Entry) : Panel := { p with log := p.log.push entry }

/-- Tells a listener of an event; if it has something to say, its script comes next. -/
def call (p : Panel) (listener : Nat) (event : Event) : Panel × List Task :=
  match p.listeners[listener]? with
  | none => (p, [])
  | some l =>
    let remark := l.remark? event
    let actions := l.actions
    let p := { p with listeners := p.listeners.modify listener (Listener.hear event) }
    match remark with
    | some entry => (p.write entry, actions)
    | none => (p, [])

/-- Deals with one matter; what comes of it is to be dealt with before all else. -/
def step (p : Panel) : Task → Panel × List Task
  | .call listener event => p.call listener event
  | .act name command =>
    let summons := p.summons command
    let (p, reply) := p.perform command
    (p, summons ++ [.note name reply])
  | .note name reply => (p.write (.reply name reply), [])

end Panel

end WordLink
