import LinuxSys.Parhash.Pool

/-! # What a step of the pool can do

Every step is one of these effects; what the steps keep, and that they come to an end, is shown from
them.
-/

namespace LinuxSys.Parhash

open Lib

namespace State

variable {lang : Language} {workers : ℕ} {root : Root}

inductive Effect (lang : Language) (workers : ℕ) (root : Root) (s : State) :
    Action → State → Prop
  | quit (flag : s.interrupted = true)
      (here : s.walker = .walking ∨ lang = .go ∧ ∃ rel, s.walker = .handing rel) :
      Effect lang workers root s .walk { s with walker := .closing, todo := [] }
  | walked (flag : s.interrupted = false) (here : s.walker = .walking) (all : s.todo = []) :
      Effect lang workers root s .walk { s with walker := .closing, todo := [] }
  | met {rel : Bytes} {rest : List Visit} (flag : s.interrupted = false)
      (here : s.walker = .walking) (next : s.todo = .file rel :: rest) :
      Effect lang workers root s .walk { s with walker := .handing rel, todo := rest }
  | passed {v : Visit} {rest : List Visit} (flag : s.interrupted = false)
      (here : s.walker = .walking) (next : s.todo = v :: rest) (none : v.file? = none) :
      Effect lang workers root s .walk { s with walker := .walking, todo := rest }
  | close (here : s.walker = .closing) :
      Effect lang workers root s .walk { s with walker := if lang = .cpp then .closed else .ended }
  | queued {rel : Bytes} {target : ℕ} (here : s.walker = .handing rel) (other : lang ≠ .go) :
      Effect lang workers root s (.hand target) { s with
        walker := if lang = .cpp then .notifying else .walking, queue := s.queue ++ [rel] }
  | given {rel : Bytes} {w : ℕ} (here : s.walker = .handing rel) (goes : lang = .go)
      (inside : w < workers) (waits : s.worker w = .waiting) :
      Effect lang workers root s (.hand w)
        { s.setWorker w (.hashing rel) with walker := .walking }
  | notified {w : ℕ} (here : s.walker = .notifying) (inside : w < workers)
      (waits : s.worker w = .waiting) :
      Effect lang workers root s (.notify w) { s.setWorker w .looking with walker := .walking }
  | unheard {target : ℕ} (here : s.walker = .notifying) :
      Effect lang workers root s (.notify target) { s with walker := .walking }
  | notifiedAll {target : ℕ} (here : s.walker = .closed) :
      Effect lang workers root s (.notify target) { s.wakeAll with walker := .ended }
  | stops {w : ℕ} {a : Action} (inside : w < workers)
      (here : s.worker w = .looking ∨ s.worker w = .waiting)
      (because : s.stopped = true ∨ s.interrupted = true ∨
        s.shut = true ∧ (lang = .go ∨ s.queue = [])) :
      Effect lang workers root s a (s.setWorker w .finished)
  | waits {w : ℕ} (inside : w < workers) (here : s.worker w = .looking)
      (awake : lang = .cpp → s.shut = false) :
      Effect lang workers root s (.look w) (s.setWorker w .waiting)
  | popped {w : ℕ} {rel : Bytes} {rest : List Bytes} (inside : w < workers)
      (here : s.worker w = .looking) (next : s.queue = rel :: rest) :
      Effect lang workers root s (.look w) { s.setWorker w (.hashing rel) with queue := rest }
  | locks {w : ℕ} (inside : w < workers) (here : s.worker w = .waiting) (rust : lang = .rust)
      (free : s.holder = none) :
      Effect lang workers root s (.receive w)
        { s.setWorker w .receiving with holder := some w }
  | received {w : ℕ} {rel : Bytes} {rest : List Bytes} (inside : w < workers)
      (here : s.worker w = .receiving) (next : s.queue = rel :: rest) :
      Effect lang workers root s (.receive w)
        { s.setWorker w (.hashing rel) with queue := rest, holder := none }
  | drained {w : ℕ} (inside : w < workers) (here : s.worker w = .receiving)
      (empty : s.queue = []) (shut : s.shut = true) :
      Effect lang workers root s (.receive w)
        { s.setWorker w .finished with holder := none }
  | skipped {w : ℕ} {rel : Bytes} {reads : List Bytes} (inside : w < workers)
      (here : s.worker w = .hashing rel) (unreadable : root.content rel = none) :
      Effect lang workers root s (.hash w reads) (s.setWorker w .looking)
  | computed {w : ℕ} {rel content : Bytes} {reads : List Bytes} (inside : w < workers)
      (here : s.worker w = .hashing rel) (readable : root.content rel = some content)
      (read : Reads content reads) :
      Effect lang workers root s (.hash w reads)
        (s.setWorker w (.sending ⟨rel, hashFile reads⟩))
  | hashed {w : ℕ} {rel content : Bytes} {reads : List Bytes} (inside : w < workers)
      (here : s.worker w = .hashing rel) (readable : root.content rel = some content)
      (read : Reads content reads) :
      Effect lang workers root s (.hash w reads)
        { s.setWorker w .looking with results := s.results ++ [⟨rel, hashFile reads⟩] }
  | sent {w : ℕ} {line : Line} (inside : w < workers) (here : s.worker w = .sending line) :
      Effect lang workers root s (.send w)
        { s.setWorker w .looking with results := s.results ++ [line] }
  | sigint (flag : s.interrupted = false) (here : s.watcher = .watching) :
      Effect lang workers root s .sigint { s with
        interrupted := true, watcher := if lang = .cpp then .flagged else .watching }
  | requested (here : s.watcher = .flagged) :
      Effect lang workers root s .watch { s with watcher := .stopping }
  | wokeAll (here : s.watcher = .stopping) :
      Effect lang workers root s .watch { s.wakeAll with watcher := .ended }
  | collected (first : s.collected = false) (joined : s.Joined lang workers) :
      Effect lang workers root s .collect { s with
        collected := true, watcher := if lang = .cpp then .ended else s.watcher }
  | checked (all : s.collected = true) :
      Effect lang workers root s .check { s with report := some s.finalCheck }
  | spurious {w : ℕ} (cpp : lang = .cpp) (inside : w < workers) (here : s.worker w = .waiting) :
      Effect lang workers root s (.spurious w) (s.setWorker w .looking)

theorem look_cpp (s : State) (w : ℕ) : s.look .cpp w =
    if s.stopped then s.setWorker w .finished
    else
      match s.queue with
      | rel :: rest => { s.setWorker w (.hashing rel) with queue := rest }
      | [] => s.setWorker w (if s.shut then .finished else .waiting) := rfl

theorem look_of_ne_cpp (s : State) (w : ℕ) (other : lang ≠ .cpp) :
    s.look lang w = s.setWorker w (if s.interrupted then .finished else .waiting) := by
  cases lang with
  | cpp => exact absurd rfl other
  | _ => rfl

theorem effect_of_step {s t : State} {a : Action} (taken : s.step lang workers root a = some t) :
    s.report = none ∧ Effect lang workers root s a t := by
  obtain ⟨running, taken⟩ := Option.ite_none_right_eq_some.mp taken
  refine ⟨running, ?_⟩
  cases a with
  | walk =>
    cases here : s.walker with
    | walking =>
      simp only [walk, here] at taken
      split_ifs at taken with flag
      · cases taken
        exact .quit flag (.inl here)
      · cases next : s.todo with
        | nil =>
          simp only [next] at taken
          cases taken
          exact .walked (eq_false_of_ne_true flag) here next
        | cons v rest =>
          cases v with
          | file rel =>
            simp only [next] at taken
            cases taken
            exact .met (eq_false_of_ne_true flag) here next
          | other =>
            simp only [next] at taken
            cases taken
            exact .passed (eq_false_of_ne_true flag) here next rfl
          | denied =>
            simp only [next] at taken
            cases taken
            exact .passed (eq_false_of_ne_true flag) here next rfl
    | handing rel =>
      simp only [walk, here] at taken
      obtain ⟨⟨goes, flag⟩, same⟩ := Option.ite_none_right_eq_some.mp taken
      cases same
      exact .quit flag (.inr ⟨goes, rel, here⟩)
    | closing =>
      simp only [walk, here] at taken
      cases taken
      exact .close here
    | _ =>
      simp only [walk, here] at taken
      cases taken
  | hand target =>
    cases here : s.walker with
    | handing rel =>
      cases lang with
      | cpp =>
        simp only [hand, here] at taken
        cases taken
        exact .queued here nofun
      | rust =>
        simp only [hand, here] at taken
        cases taken
        exact .queued here nofun
      | go =>
        simp only [hand, here] at taken
        obtain ⟨⟨inside, waits⟩, same⟩ := Option.ite_none_right_eq_some.mp taken
        cases same
        exact .given here rfl inside waits
    | _ =>
      simp only [hand, here] at taken
      cases taken
  | notify target =>
    cases here : s.walker with
    | notifying =>
      simp only [notify, here] at taken
      split_ifs at taken with waits none
      · cases taken
        exact .notified here waits.1 waits.2
      · cases taken
        exact .unheard here
    | closed =>
      simp only [notify, here] at taken
      cases taken
      exact .notifiedAll here
    | _ =>
      simp only [notify, here] at taken
      cases taken
  | look w =>
    obtain ⟨⟨inside, here⟩, same⟩ := Option.ite_none_right_eq_some.mp taken
    cases same
    by_cases cpp : lang = .cpp
    · subst cpp
      rw [look_cpp]
      by_cases stop : s.stopped
      · rw [if_pos stop]
        exact .stops inside (.inl here) (.inl stop)
      · rw [if_neg stop]
        split
        · next rel rest next => exact .popped inside here next
        · next empty =>
          split_ifs with shut
          · exact .stops inside (.inl here) (.inr (.inr ⟨shut, .inr empty⟩))
          · exact .waits inside here fun _ => eq_false_of_ne_true shut
    · rw [look_of_ne_cpp s w cpp]
      split_ifs with flag
      · exact .stops inside (.inl here) (.inr (.inl flag))
      · exact .waits inside here fun same => absurd same cpp
  | receive w =>
    obtain ⟨inside, taken⟩ := Option.ite_none_right_eq_some.mp taken
    cases here : s.worker w with
    | waiting =>
      cases lang with
      | cpp =>
        cases taken
      | rust =>
        simp only [receive, here] at taken
        obtain ⟨free, same⟩ := Option.ite_none_right_eq_some.mp taken
        cases same
        exact .locks inside here rfl free
      | go =>
        simp only [receive, here] at taken
        obtain ⟨because, same⟩ := Option.ite_none_right_eq_some.mp taken
        cases same
        refine .stops inside (.inr here) ?_
        rcases because with flag | shut
        · exact .inr (.inl flag)
        · exact .inr (.inr ⟨shut, .inl rfl⟩)
    | receiving =>
      cases lang with
      | rust =>
        cases next : s.queue with
        | cons rel rest =>
          simp only [receive, here, next] at taken
          cases taken
          exact .received inside here next
        | nil =>
          simp only [receive, here, next] at taken
          obtain ⟨shut, same⟩ := Option.ite_none_right_eq_some.mp taken
          cases same
          exact .drained inside here next shut
      | cpp => cases taken
      | go =>
        simp only [receive, here] at taken
        cases taken
    | _ =>
      cases lang <;> simp only [receive, here] at taken <;> cases taken
  | hash w reads =>
    obtain ⟨inside, taken⟩ := Option.ite_none_right_eq_some.mp taken
    cases here : s.worker w with
    | hashing rel =>
      cases readable : root.content rel with
      | none =>
        simp only [hash, here, readable] at taken
        cases taken
        exact .skipped inside here readable
      | some content =>
        simp only [hash, here, readable] at taken
        obtain ⟨read, same⟩ := Option.ite_none_right_eq_some.mp taken
        split_ifs at same with goes
        · cases same
          exact .computed inside here readable read
        · cases same
          exact .hashed inside here readable read
    | _ =>
      simp only [hash, here] at taken
      cases taken
  | send w =>
    obtain ⟨inside, taken⟩ := Option.ite_none_right_eq_some.mp taken
    cases here : s.worker w with
    | sending line =>
      simp only [here] at taken
      cases taken
      exact .sent inside here
    | _ =>
      simp only [here] at taken
      cases taken
  | sigint =>
    obtain ⟨⟨flag, here⟩, same⟩ := Option.ite_none_right_eq_some.mp taken
    cases same
    exact .sigint flag here
  | watch =>
    cases here : s.watcher with
    | flagged =>
      simp only [here] at taken
      cases taken
      exact .requested here
    | stopping =>
      simp only [here] at taken
      cases taken
      exact .wokeAll here
    | _ =>
      simp only [here] at taken
      cases taken
  | collect =>
    obtain ⟨⟨first, joined⟩, same⟩ := Option.ite_none_right_eq_some.mp taken
    cases same
    exact .collected first joined
  | check =>
    obtain ⟨all, same⟩ := Option.ite_none_right_eq_some.mp taken
    cases same
    exact .checked all
  | spurious w =>
    obtain ⟨⟨cpp, inside, here⟩, same⟩ := Option.ite_none_right_eq_some.mp taken
    cases same
    exact .spurious cpp inside here

end State

end LinuxSys.Parhash
