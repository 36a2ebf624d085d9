import SyntaxDrawing.Shell.Act

/-!
# Redirecting descriptors

Redirections are made in order. What the descriptors stood for is put aside, so that it can be taken
back when the command is over.
-/

namespace SyntaxDrawing.Shell

/-- What a redirection comes to. A text below the command is expanded when it is redirected to, all
other targets before. -/
inductive Turnout
  | path (descriptor : Nat) (direction : Direction) (target : Raw)
  | text (descriptor : Nat) (text : Act Raw)

/-- Where the channels of descriptors have been put aside; nowhere if they were closed. -/
abbrev Aside : Type :=
  List (Nat × Option Nat)

def redirectionFault (isOutput : Bool) (fault : FileFault) : String :=
  match isOutput, fault with
  | true, .missing => "Directory nonexistent"
  | false, .missing => "No such file"
  | _, fault => fault.text

namespace Act

def putAside (descriptor : Nat) (aside : Aside) : Act Aside := do
  match aside.lookup descriptor with
  | some _ => return aside
  | none =>
    let place ← answering fun s process => s.putAside process descriptor
    return (descriptor, place) :: aside

/-- Makes one redirection. Returns whether that was possible. -/
def turn (t : Turnout) (aside : Aside) : Act (Bool × Aside) := do
  match t with
  | .text descriptor text =>
    let text ← text
    let aside ← putAside descriptor aside
    alter fun s process => s.openText process descriptor text
    return (true, aside)
  | .path descriptor .duplicate target =>
    let source := naturalOf target
    if target != ['-'] && source = descriptor then return (true, aside)
    else
      let aside ← putAside descriptor aside
      if target = ['-'] then
        alter fun s process => s.close process descriptor
        return (true, aside)
      else if (← observe fun s process => s.channelNumber? process source).isSome then
        alter fun s process => s.duplicate process source descriptor
        return (true, aside)
      else
        warn (target ++ ": Bad file descriptor".toList) 2
        return (false, aside)
  | .path descriptor direction target =>
    let isOutput := direction != .input
    let access : Access := ⟨!isOutput || direction = .both, isOutput, direction = .appending⟩
    let free ← observe fun s process => s.freeDescriptor process
    match ← openAt free target access (direction = .output) with
    | some fault =>
      let verb := if isOutput then "create " else "open "
      warn (("cannot " ++ verb).toList ++ target ++
        Raw.ofString (": " ++ redirectionFault isOutput fault)) 2
      return (false, aside)
    | none =>
      let aside ← putAside descriptor aside
      alter fun s process => (s.duplicate process free descriptor).close process free
      return (true, aside)

def turnAll (ts : List Turnout) (aside : Aside) : Act (Bool × Aside) := do
  match ts with
  | [] => return (true, aside)
  | t :: ts =>
    let (isDone, aside) ←
      try turn t aside
      catch
        | .failed => pure (false, aside)
        | leaving => throw leaving
    if isDone then turnAll ts aside else return (false, aside)

def takeBack (aside : Aside) : Act Unit :=
  alter fun s process =>
    aside.foldl (fun s (descriptor, place) => s.takeBack process descriptor place) s

def forgetAside (aside : Aside) : Act Unit :=
  alter fun s process => (aside.filterMap (·.2)).foldl (fun s place => s.close process place) s

/-- Acts with redirections, and takes them back. The act is given what has been put aside. Returns
whether the redirections were possible. -/
def redirected (ts : List Turnout) (act : Aside → Act Unit) : Act Bool := do
  if ts.isEmpty then
    act []
    return true
  else
    let (isDone, aside) ← turnAll ts []
    if isDone then
      try act aside
      catch leaving =>
        takeBack aside
        throw leaving
    takeBack aside
    return isDone

end Act

end SyntaxDrawing.Shell
