import MlFront.Parser.Entry

/-!
# Parser sessions

A session drives one parse step by step. It holds the state of the parse, its
tables, and the nodes and open forms that earlier steps made. `Session.step`
carries out one `Command` and gives its `Answer`. A step that fails leaves the
state where the failure happened, and the session goes on from there.
-/

namespace MlFront

/-- What a session can be told to do. -/
inductive Command where
  | look
  | current
  | currentKind
  | advance
  | expect (text : String)
  | expectOr (text : String) (cause : Cause) (line : Nat)
  | fail (cause : Cause)
  | failAt (cause : Cause) (line : Nat)
  | operator
  | addStandard
  | setPower (kind : Kind) (power : Power)
  | setForm (kind : Kind) (form : Form)
  | tables
  | descend (count : Nat)
  | ascend (count : Nat)
  | parse (entry : Entry)
  | parseForm (form : Form)
  | close
  | build
  deriving DecidableEq, Repr

/-- What a session answers. -/
inductive Answer where
  | done
  | token (token : Option Token)
  | kind (kind : Option Kind)
  | operator (operator : Option (String × Power))
  | tables (powers : List (Kind × Power)) (forms : List Kind)
  | descended (count : Nat) (failure : Option Error)
  | node (node : Node)
  | form (form : OpenForm)
  | error (error : Error)
  deriving DecidableEq

/-- A parse under way. -/
structure Session where
  /-- The text that faults are shown in. -/
  source : String
  tables : Tables
  state : State
  /-- The nodes made so far, last first. -/
  nodes : List Node
  /-- The open forms made so far, last first. -/
  forms : List OpenForm

namespace Session

/-- A session at the start of some tokens, with empty tables. -/
def start (tokens : List Token) (source : String) : Session :=
  ⟨source, .empty, .start tokens, [], []⟩

/-- Runs a step of the parse; `keep` makes the answer of a value and keeps the value. -/
def run {α : Type} (session : Session) (step : ParseM α) (keep : α → Session → Session × Answer) :
    Session × Answer :=
  match step.run session.state with
  | .ok value state => keep value { session with state := state }
  | .error fault state => ({ session with state := state }, .error (fault.inSource session.source))

/-- Answers with a token. -/
def keepToken (token : Option Token) (session : Session) : Session × Answer :=
  (session, .token token)

/-- Answers with a node and adds it to the nodes. -/
def keepNode (node : Node) (session : Session) : Session × Answer :=
  ({ session with nodes := node :: session.nodes }, .node node)

/-- Answers with an open form and adds it to the open forms. -/
def keepForm (form : OpenForm) (session : Session) : Session × Answer :=
  ({ session with forms := form :: session.forms }, .form form)

/-- Opens up to `count` expressions, stopping at the first failure. Adds the
number of expressions opened to `opened`. -/
def descendFrom (opened : Nat) : (count : Nat) → State → Nat × Option Fault × State
  | 0, state => (opened, none, state)
  | count + 1, state =>
    match ParseM.descend.run state with
    | .ok _ state => descendFrom (opened + 1) count state
    | .error fault state => (opened, some fault, state)

/-- Carries out one command. -/
def step (session : Session) : Command → Session × Answer
  | .look => (session, .done)
  | .current => session.run ParseM.current? keepToken
  | .currentKind => (session, .kind (session.state.rest.head?.map (·.kind)))
  | .advance => session.run ParseM.advance keepToken
  | .expect text => session.run (ParseM.expect text) fun token => keepToken (some token)
  | .expectOr text cause line =>
    session.run (ParseM.expectOr text (·.faultAt cause line)) fun token => keepToken (some token)
  | .fail cause => (session, .error ((session.state.fault cause).inSource session.source))
  | .failAt cause line =>
    (session, .error ((session.state.faultAt cause line).inSource session.source))
  | .operator => (session, .operator (session.state.operator? session.tables))
  | .addStandard => ({ session with tables := session.tables.withStandard }, .done)
  | .setPower kind power => ({ session with tables := session.tables.setPower kind power }, .done)
  | .setForm kind form => ({ session with tables := session.tables.setForm kind form }, .done)
  | .tables => (session, .tables session.tables.powerList session.tables.formList)
  | .descend count =>
    let (opened, fault, state) := descendFrom 0 count session.state
    ({ session with state := state }, .descended opened (fault.map (·.inSource session.source)))
  | .ascend count => ({ session with state := session.state.closeMany count }, .done)
  | .parse entry => session.run (entry.step session.tables) keepNode
  | .parseForm form => session.run (form.step session.tables) keepForm
  | .close =>
    match session.forms, session.nodes with
    | form :: forms, node :: nodes =>
      keepNode (form.close node) { session with forms := forms, nodes := nodes }
    | _, _ => (session, .done)
  | .build =>
    match session.nodes with
    | [] => (session, .done)
    | node :: nodes => { session with nodes := nodes }.run (ParseM.build node) keepNode

end Session

end MlFront
