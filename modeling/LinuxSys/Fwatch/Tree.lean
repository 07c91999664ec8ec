import LinuxSys.Language
import LinuxSys.Lib.Decimal
import LinuxSys.Lib.FiniteMap
import LinuxSys.Lib.Utf8

/-! # The walk of fwatch v0

`scan` walks a directory tree and keeps the size and the time of modification of every regular file
under its relative path. The Rust program makes a text of each name and asks the kernel for that
text, so it finds an entry whose name is not UTF-8 under no name, or its neighbour under its own.
-/

namespace LinuxSys.Fwatch.V0

open Lib

def slash : UInt8 := 0x2F

def newline : UInt8 := 0x0A

def nameMax : ℕ := 255

def ENOENT : ℕ := 2

def ENAMETOOLONG : ℕ := 36

structure Info where
  size : ℤ
  mtime : ℤ
deriving DecidableEq, Repr

inductive Node where
  | file (info : Info)
  | dir (entries : List (Bytes × Node))
  | other

/-- The entries of a directory, without the two for itself and its parent. -/
abbrev Entries := List (Bytes × Node)

/-- What the kernel takes for a name; a newline is left out. -/
structure Named (name : Bytes) : Prop where
  full : name ≠ []
  short : name.length ≤ nameMax
  fresh : 0 ∉ name ∧ slash ∉ name ∧ newline ∉ name
  dots : name ≠ ascii "." ∧ name ≠ ascii ".."

structure Info.Fits (info : Info) : Prop where
  size : -2 ^ 63 ≤ info.size ∧ info.size ≤ 2 ^ 63 - 1
  mtime : -2 ^ 63 ≤ info.mtime ∧ info.mtime ≤ 2 ^ 63 - 1

inductive Proper : Entries → Prop where
  | intro {entries : Entries} (distinct : (entries.map Prod.fst).Nodup)
      (named : ∀ entry ∈ entries, Named entry.1)
      (fits : ∀ name info, (name, .file info) ∈ entries → info.Fits)
      (below : ∀ name sub, (name, .dir sub) ∈ entries → Proper sub) : Proper entries

structure Directory where
  entries : Entries
  proper : Proper entries

abbrev Tree := FiniteMap Bytes Info

/-! `walk`. -/

/-- `d_name`, as the program keeps it. -/
def shown (lang : Language) (name : Bytes) : Bytes :=
  match lang with
  | .rust => Utf8.lossy name
  | .cpp | .go => name

def lookup (entries : Entries) (name : Bytes) : Option Node :=
  (entries.find? fun entry => entry.1 = name).map Prod.snd

/-- `fstatat`, or the number of its error. -/
def statAt (entries : Entries) (name : Bytes) : Except ℕ Node :=
  if nameMax < name.length then .error ENAMETOOLONG
  else
    match lookup entries name with
    | some node => .ok node
    | none => .error ENOENT

def join (base name : Bytes) : Bytes := if base = [] then name else base ++ slash :: name

def fail (what path : Bytes) (errno : ℕ) : Bytes :=
  ascii "cannot " ++ what ++ ascii " '" ++ path ++ ascii "' (errno " ++ decimal errno ++ ascii ")"

theorem mem_of_lookup {entries : Entries} {name : Bytes} {node : Node}
    (found : lookup entries name = some node) : (name, node) ∈ entries := by
  obtain ⟨⟨other, node⟩, here, rfl⟩ := Option.map_eq_some_iff.mp found
  have same := List.find?_some here
  obtain rfl : other = name := of_decide_eq_true same
  exact List.mem_of_find?_eq_some here

theorem statAt_eq_ok_iff {entries : Entries} {name : Bytes} {node : Node} :
    statAt entries name = .ok node ↔ name.length ≤ nameMax ∧ lookup entries name = some node := by
  rw [statAt]
  split
  · next long =>
    constructor
    · rintro ⟨⟩
    · rintro ⟨short, -⟩
      omega
  · next short =>
    rw [and_iff_right (Nat.not_lt.mp short)]
    split
    · next found => simp only [found, Except.ok.injEq, Option.some.injEq]
    · next none => simp only [none, reduceCtorEq]

theorem of_statAt_error {entries : Entries} {name : Bytes} {errno : ℕ}
    (failed : statAt entries name = .error errno) :
    (errno ≠ ENOENT ∧ nameMax < name.length) ∨
      (errno = ENOENT ∧ name.length ≤ nameMax ∧ lookup entries name = none) := by
  rw [statAt] at failed
  split at failed
  · next long =>
    cases failed
    exact Or.inl ⟨by decide, long⟩
  · next short =>
    split at failed
    · cases failed
    · next none =>
      cases failed
      exact Or.inr ⟨rfl, Nat.not_lt.mp short, none⟩

theorem sizeOf_of_mem {entries sub : Entries} {name : Bytes} (member : (name, .dir sub) ∈ entries) :
    sizeOf sub < sizeOf entries := by
  have entry := List.sizeOf_lt_of_mem member
  simp only [Prod.mk.sizeOf_spec, Node.dir.sizeOf_spec] at entry
  omega

/-- The names of a directory as the program keeps them. -/
def readdir (lang : Language) (entries : Entries) : List Bytes :=
  entries.map fun entry => shown lang entry.1

/-- The loop over the names. -/
def walk (lang : Language) (entries : Entries) (display rel : Bytes) :
    List Bytes → Tree → Except Bytes Tree
  | [], tree => .ok tree
  | name :: rest, tree =>
    if name = ascii "." ∨ name = ascii ".." then walk lang entries display rel rest tree
    else
      match _found : statAt entries name with
      | .error errno =>
        if errno = ENOENT then walk lang entries display rel rest tree
        else .error (fail (ascii "stat") (join display name) errno)
      | .ok (.file info) =>
        walk lang entries display rel rest (tree.insert (join rel name) info)
      | .ok (.dir sub) =>
        match walk lang sub (join display name) (join rel name) (readdir lang sub) tree with
        | .ok tree => walk lang entries display rel rest tree
        | .error text => .error text
      | .ok .other => walk lang entries display rel rest tree
termination_by names => (sizeOf entries, names.length)
decreasing_by
  · exact Prod.Lex.right _ (Nat.lt_succ_self _)
  · exact Prod.Lex.right _ (Nat.lt_succ_self _)
  · exact Prod.Lex.right _ (Nat.lt_succ_self _)
  · exact Prod.Lex.left _ _ (sizeOf_of_mem (mem_of_lookup (statAt_eq_ok_iff.mp _found).2))
  · exact Prod.Lex.right _ (Nat.lt_succ_self _)
  · exact Prod.Lex.right _ (Nat.lt_succ_self _)

def scan (lang : Language) (dir : Directory) (path : Bytes) : Except Bytes Tree :=
  walk lang dir.entries path [] (readdir lang dir.entries) FiniteMap.empty

/-! The regular files of a tree. -/

theorem length_of_splitFirst {whole left right : Bytes}
    (found : splitFirst? slash whole = some (left, right)) : right.length < whole.length := by
  obtain ⟨rfl, -⟩ := splitFirst?_eq_some_iff.mp found
  rw [List.length_append, List.length_cons]
  omega

/-- The regular file that has the relative path. -/
def fileAt (entries : Entries) (path : Bytes) : Option Info :=
  match _found : splitFirst? slash path with
  | none =>
    match lookup entries path with
    | some (.file info) => some info
    | _ => none
  | some (name, rest) =>
    match lookup entries name with
    | some (.dir sub) => fileAt sub rest
    | _ => none
termination_by path.length
decreasing_by exact length_of_splitFirst _found

/-- Some directory that Rust comes to has an entry whose name, made a text, is too long. -/
inductive TooLong (lang : Language) : Entries → Prop where
  | here {entries : Entries} {name : Bytes} {node : Node} (member : (name, node) ∈ entries)
      (long : nameMax < (shown lang name).length) : TooLong lang entries
  | deeper {entries sub : Entries} {name : Bytes} (member : (name, .dir sub) ∈ entries)
      (same : shown lang name = name) (inside : TooLong lang sub) : TooLong lang entries

section Names

variable {lang : Language} {entries : Entries} {name : Bytes}

theorem Proper.distinct (proper : Proper entries) : (entries.map Prod.fst).Nodup := by
  cases proper with
  | intro distinct named fits below => exact distinct

theorem Proper.named (proper : Proper entries) {node : Node} (member : (name, node) ∈ entries) :
    Named name := by
  cases proper with
  | intro distinct named fits below => exact named _ member

theorem Proper.fits (proper : Proper entries) {info : Info}
    (member : (name, .file info) ∈ entries) : info.Fits := by
  cases proper with
  | intro distinct named fits below => exact fits name info member

theorem Proper.sub (proper : Proper entries) {sub : Entries}
    (member : (name, .dir sub) ∈ entries) : Proper sub := by
  cases proper with
  | intro distinct named fits below => exact below name sub member

theorem lookup_eq_some_iff (proper : Proper entries) {node : Node} :
    lookup entries name = some node ↔ (name, node) ∈ entries := by
  refine ⟨mem_of_lookup, fun member => ?_⟩
  have distinct := proper.distinct
  clear proper
  induction entries with
  | nil => cases member
  | cons entry entries ih =>
    rw [List.map_cons, List.nodup_cons] at distinct
    rcases List.mem_cons.mp member with rfl | later
    · simp only [lookup, List.find?_cons, decide_true, Option.map_some]
    · have other : entry.1 ≠ name := by
        rintro rfl
        exact distinct.1 (List.mem_map.mpr ⟨_, later, rfl⟩)
      simp only [lookup, List.find?_cons, decide_eq_false other]
      exact ih later distinct.2

theorem fileAt_of_fresh (fresh : slash ∉ name) {info : Info} :
    fileAt entries name = some info ↔ lookup entries name = some (.file info) := by
  have whole := splitFirst?_eq_none_iff.mpr fresh
  rw [fileAt]
  split
  · split
    · next found => simp only [found, Option.some.injEq, Node.file.injEq]
    · next other =>
      constructor
      · rintro ⟨⟩
      · intro found
        exact absurd found (other info)
  · next found =>
    rw [whole] at found
    cases found

theorem fileAt_append (fresh : slash ∉ name) {rest : Bytes} {info : Info} :
    fileAt entries (name ++ slash :: rest) = some info ↔
      ∃ sub, lookup entries name = some (.dir sub) ∧ fileAt sub rest = some info := by
  have parts := splitFirst?_append fresh rest
  rw [fileAt]
  split
  · next found =>
    rw [parts] at found
    cases found
  · next first later found =>
    rw [parts] at found
    cases found
    split
    · next sub found =>
      constructor
      · intro inside
        exact ⟨sub, found, inside⟩
      · rintro ⟨other, same, inside⟩
        rw [found] at same
        cases same
        exact inside
    · next other =>
      constructor
      · rintro ⟨⟩
      · rintro ⟨sub, found, -⟩
        exact absurd found (other sub)

/-- What is known of a file and its path. -/
theorem of_fileAt {path : Bytes} {info : Info} (proper : Proper entries)
    (held : fileAt entries path = some info) : path ≠ [] ∧ newline ∉ path ∧ info.Fits := by
  induction size : path.length using Nat.strong_induction_on generalizing entries path with
  | h n ih =>
    subst size
    cases parts : splitFirst? slash path with
    | none =>
      have member := mem_of_lookup ((fileAt_of_fresh (splitFirst?_eq_none_iff.mp parts)).mp held)
      have named := proper.named member
      exact ⟨named.full, named.fresh.2.2, proper.fits member⟩
    | some both =>
      obtain ⟨name, rest⟩ := both
      have shorter := length_of_splitFirst parts
      obtain ⟨rfl, fresh⟩ := splitFirst?_eq_some_iff.mp parts
      obtain ⟨sub, found, below⟩ := (fileAt_append fresh).mp held
      have member := mem_of_lookup found
      obtain ⟨-, clean, fits⟩ := ih rest.length shorter (proper.sub member) below rfl
      refine ⟨List.append_ne_nil_of_right_ne_nil _ (List.cons_ne_nil _ _), ?_, fits⟩
      exact List.not_mem_append (proper.named member).fresh.2.2
        (List.not_mem_cons_of_ne_of_not_mem (by decide) clean)

theorem shown_shown (lang : Language) (name : Bytes) :
    shown lang (shown lang name) = shown lang name := by
  cases lang with
  | rust => exact Utf8.lossy_lossy name
  | cpp | go => rfl

theorem shown_append_iff {left right : Bytes} :
    shown lang (left ++ slash :: right) = left ++ slash :: right ↔
      shown lang left = left ∧ shown lang right = right := by
  cases lang with
  | rust =>
    rw [shown, shown, shown, Utf8.lossy_eq_self_iff, Utf8.lossy_eq_self_iff,
      Utf8.lossy_eq_self_iff]
    exact Utf8.valid_append_cons_iff (by decide) left right
  | cpp | go => exact iff_of_true rfl ⟨rfl, rfl⟩

theorem shown_nil (lang : Language) : shown lang [] = [] := by
  cases lang with
  | rust => exact Utf8.lossy_nil
  | cpp | go => rfl

theorem join_nil (name : Bytes) : join [] name = name := rfl

theorem join_of_full {base : Bytes} (full : base ≠ []) (name : Bytes) :
    join base name = base ++ slash :: name := if_neg full

theorem join_join {rel : Bytes} (full : name ≠ []) (path : Bytes) :
    join (join rel name) path = join rel (name ++ slash :: path) := by
  by_cases top : rel = []
  · rw [top, join_nil, join_nil, join_of_full full]
  · rw [join_of_full top, join_of_full top, join_of_full (List.append_ne_nil_of_left_ne_nil top _),
      List.append_assoc, List.cons_append]

theorem shown_join {rel : Bytes} (same : shown lang rel = rel) (here : shown lang name = name) :
    shown lang (join rel name) = join rel name := by
  by_cases top : rel = []
  · rw [top, join_nil, here]
  · rw [join_of_full top, shown_append_iff]
    exact ⟨same, here⟩

end Names

/-! The walk of a directory keeps files of the whole tree, and all of that directory. -/

section Walk

variable {lang : Language} {root entries : Entries} {rel : Bytes}

/-- The paths of a directory, seen from the top. -/
def Linked (root entries : Entries) (rel : Bytes) : Prop :=
  ∀ path info, fileAt root (join rel path) = some info ↔ fileAt entries path = some info

def Kept (lang : Language) (root : Entries) (tree : Tree) : Prop :=
  ∀ path info, tree.find path = some info → fileAt root path = some info ∧ shown lang path = path

/-- The path is the name, or leads through it. -/
def Through (name path : Bytes) : Prop := path = name ∨ ∃ rest, path = name ++ slash :: rest

structure Walked (lang : Language) (root entries : Entries) (rel : Bytes) (names : List Bytes)
    (tree next : Tree) : Prop where
  kept : Kept lang root next
  grows : ∀ path info, tree.find path = some info → next.find path = some info
  found : ∀ name ∈ names, ∀ path info, Through name path → fileAt entries path = some info →
    shown lang path = path → next.find (join rel path) = some info

theorem Linked.sub {name : Bytes} {sub : Entries} (linked : Linked root entries rel)
    (named : Named name) (inside : lookup entries name = some (.dir sub)) :
    Linked root sub (join rel name) := by
  intro path info
  rw [join_join named.full, linked, fileAt_append named.fresh.2.1]
  constructor
  · rintro ⟨other, found, held⟩
    rw [inside] at found
    cases found
    exact held
  · intro held
    exact ⟨sub, inside, held⟩

/-- What a file is found through. -/
theorem Through.node {name path : Bytes} {info : Info} (through : Through name path)
    (fresh : slash ∉ name) (held : fileAt entries path = some info)
    (same : shown lang path = path) :
    shown lang name = name ∧ ((path = name ∧ lookup entries name = some (.file info)) ∨
      ∃ sub rest, path = name ++ slash :: rest ∧ lookup entries name = some (.dir sub) ∧
        fileAt sub rest = some info ∧ shown lang rest = rest) := by
  rcases through with rfl | ⟨rest, rfl⟩
  · exact ⟨same, Or.inl ⟨rfl, (fileAt_of_fresh fresh).mp held⟩⟩
  · obtain ⟨sub, found, below⟩ := (fileAt_append fresh).mp held
    obtain ⟨first, later⟩ := shown_append_iff.mp same
    exact ⟨first, Or.inr ⟨sub, rest, rfl, found, below, later⟩⟩

theorem exists_through {path : Bytes} {info : Info} (held : fileAt entries path = some info)
    (same : shown lang path = path) : ∃ name ∈ readdir lang entries, Through name path := by
  have member {name : Bytes} {node : Node} (found : lookup entries name = some node)
      (here : shown lang name = name) : name ∈ readdir lang entries :=
    List.mem_map.mpr ⟨(name, node), mem_of_lookup found, here⟩
  cases parts : splitFirst? slash path with
  | none =>
    have found := (fileAt_of_fresh (splitFirst?_eq_none_iff.mp parts)).mp held
    exact ⟨path, member found same, Or.inl rfl⟩
  | some both =>
    obtain ⟨name, rest⟩ := both
    obtain ⟨rfl, fresh⟩ := splitFirst?_eq_some_iff.mp parts
    obtain ⟨sub, found, -⟩ := (fileAt_append fresh).mp held
    exact ⟨name, member found (shown_append_iff.mp same).1, Or.inr ⟨rest, rfl⟩⟩

/-- The files found through the first name are kept before the rest is walked. -/
theorem Walked.cons {name : Bytes} {names : List Bytes} {tree middle next : Tree}
    (grows : ∀ path info, tree.find path = some info → middle.find path = some info)
    (head : ∀ path info, Through name path → fileAt entries path = some info →
      shown lang path = path → middle.find (join rel path) = some info)
    (rest : Walked lang root entries rel names middle next) :
    Walked lang root entries rel (name :: names) tree next := by
  refine ⟨rest.kept, fun path info here => rest.grows path info (grows path info here), ?_⟩
  intro other member path info through held same
  rcases List.mem_cons.mp member with rfl | later
  · exact rest.grows _ info (head path info through held same)
  · exact rest.found other later path info through held same

/-- No file is found through the first name. -/
theorem Walked.skip {name : Bytes} {names : List Bytes} {tree next : Tree} (fresh : slash ∉ name)
    (none : ∀ node, lookup entries name = some node → node = .other)
    (rest : Walked lang root entries rel names tree next) :
    Walked lang root entries rel (name :: names) tree next := by
  refine Walked.cons (fun path info here => here) (fun path info through held same => ?_) rest
  obtain ⟨-, ⟨-, found⟩ | ⟨sub, later, -, found, -⟩⟩ := through.node fresh held same
  · cases none _ found
  · cases none _ found

theorem statAt_of_lookup (proper : Proper entries) {name : Bytes} {node : Node}
    (found : lookup entries name = some node) : statAt entries name = .ok node :=
  statAt_eq_ok_iff.mpr ⟨(proper.named (mem_of_lookup found)).short, found⟩

theorem of_mem_readdir {name : Bytes} (proper : Proper entries)
    (member : name ∈ readdir lang entries) : slash ∉ name ∧ shown lang name = name := by
  obtain ⟨⟨entry, node⟩, here, rfl⟩ := List.mem_map.mp member
  refine ⟨?_, shown_shown lang entry⟩
  have fresh := (proper.named here).fresh.2.1
  cases lang with
  | rust => exact (Utf8.mem_lossy_iff (by decide) entry).not.mpr fresh
  | cpp | go => exact fresh

theorem walk_walked {display : Bytes} {names : List Bytes} {tree next : Tree}
    (proper : Proper entries) (linked : Linked root entries rel) (same : shown lang rel = rel)
    (inside : ∀ name ∈ names, name ∈ readdir lang entries) (kept : Kept lang root tree)
    (walked : walk lang entries display rel names tree = .ok next) :
    Walked lang root entries rel names tree next := by
  fun_induction walk lang entries display rel names tree generalizing next with
  | case1 entries display rel tree =>
    cases walked
    refine ⟨kept, fun path info here => here, ?_⟩
    rintro name ⟨⟩
  | case2 entries display rel name names tree dots ih =>
    obtain ⟨first, later⟩ := List.forall_mem_cons.mp inside
    obtain ⟨fresh, -⟩ := of_mem_readdir proper first
    refine (ih proper linked same later kept walked).skip fresh fun node found => ?_
    have named := proper.named (mem_of_lookup found)
    rcases dots with one | two
    · exact absurd one named.dots.1
    · exact absurd two named.dots.2
  | case3 entries display rel name names tree dots failed ih =>
    obtain ⟨first, later⟩ := List.forall_mem_cons.mp inside
    obtain ⟨fresh, -⟩ := of_mem_readdir proper first
    refine (ih proper linked same later kept walked).skip fresh fun node found => ?_
    rw [statAt_of_lookup proper found] at failed
    cases failed
  | case4 => cases walked
  | case5 entries display rel name names tree dots info stat ih =>
    obtain ⟨first, later⟩ := List.forall_mem_cons.mp inside
    obtain ⟨fresh, text⟩ := of_mem_readdir proper first
    have found := (statAt_eq_ok_iff.mp stat).2
    have held : fileAt root (join rel name) = some info := by
      rw [linked, fileAt_of_fresh fresh]
      exact found
    have grown : Kept lang root (tree.insert (join rel name) info) := by
      intro path other here
      rw [FiniteMap.find_insert] at here
      split at here
      · next again =>
        rw [again, ← Option.some.inj here]
        exact ⟨held, shown_join same text⟩
      · exact kept path other here
    refine Walked.cons (fun path other here => ?_) (fun path other through file text => ?_)
      (ih proper linked same later grown walked)
    · rw [FiniteMap.find_insert]
      split
      · next again =>
        have both := (kept path other here).1
        rw [again, held] at both
        exact both
      · exact here
    · obtain ⟨-, ⟨rfl, alone⟩ | ⟨sub, rest, -, below, -⟩⟩ := through.node fresh file text
      · rw [found] at alone
        cases alone
        rw [FiniteMap.find_insert, if_pos rfl]
      · rw [found] at below
        cases below
  | case6 entries display rel name names tree dots sub stat middle below ihSub ih =>
    obtain ⟨first, later⟩ := List.forall_mem_cons.mp inside
    obtain ⟨fresh, text⟩ := of_mem_readdir proper first
    have found := (statAt_eq_ok_iff.mp stat).2
    have named := proper.named (mem_of_lookup found)
    have walkedSub := ihSub (proper.sub (mem_of_lookup found)) (linked.sub named found)
      (shown_join same text) (fun other member => member) kept below
    refine Walked.cons walkedSub.grows (fun path other through file text => ?_)
      (ih proper linked same later walkedSub.kept walked)
    obtain ⟨-, ⟨rfl, alone⟩ | ⟨sub', rest, rfl, found', held, text'⟩⟩ :=
      through.node fresh file text
    · rw [found] at alone
      cases alone
    · rw [found] at found'
      cases found'
      obtain ⟨entry, member, through'⟩ := exists_through held text'
      have kept' := walkedSub.found entry member rest other through' held text'
      rw [join_join named.full] at kept'
      exact kept'
  | case7 => cases walked
  | case8 entries display rel name names tree dots stat ih =>
    obtain ⟨first, later⟩ := List.forall_mem_cons.mp inside
    obtain ⟨fresh, -⟩ := of_mem_readdir proper first
    refine (ih proper linked same later kept walked).skip fresh fun node found => ?_
    rw [statAt_of_lookup proper found] at stat
    cases stat
    rfl

/-- What was kept are the files whose whole path the program can tell. -/
theorem find_of_scan {dir : Directory} {path : Bytes} {tree : Tree}
    (scanned : scan lang dir path = .ok tree) (file : Bytes) (info : Info) :
    tree.find file = some info ↔ fileAt dir.entries file = some info ∧ shown lang file = file := by
  have linked : Linked dir.entries dir.entries [] := fun path info => Iff.rfl
  have kept : Kept lang dir.entries FiniteMap.empty := by
    rintro path info ⟨⟩
  have walked := walk_walked dir.proper linked (shown_nil lang) (fun name member => member) kept
    scanned
  constructor
  · exact walked.kept file info
  · rintro ⟨held, same⟩
    obtain ⟨name, member, through⟩ := exists_through held same
    exact walked.found name member file info through held same

theorem tooLong_iff (proper : Proper entries) : TooLong lang entries ↔
    ∃ name ∈ readdir lang entries, nameMax < name.length ∨
      ∃ sub, lookup entries name = some (.dir sub) ∧ TooLong lang sub := by
  constructor
  · intro long
    cases long with
    | here member long => exact ⟨_, List.mem_map_of_mem member, Or.inl long⟩
    | deeper member same inside =>
      refine ⟨_, List.mem_map_of_mem member, Or.inr ⟨_, ?_, inside⟩⟩
      rw [same]
      exact (lookup_eq_some_iff proper).mpr member
  · rintro ⟨name, member, long | ⟨sub, found, inside⟩⟩
    · obtain ⟨entry, here, rfl⟩ := List.mem_map.mp member
      exact .here here long
    · exact .deeper (mem_of_lookup found) (of_mem_readdir proper member).2 inside

/-- The walk cannot go on at a name. -/
def Stuck (lang : Language) (entries : Entries) (name : Bytes) : Prop :=
  nameMax < name.length ∨ ∃ sub, lookup entries name = some (.dir sub) ∧ TooLong lang sub

theorem not_stuck_of_lookup {name : Bytes} {node : Node} (short : name.length ≤ nameMax)
    (found : lookup entries name = some node) (leaf : ∀ sub, node ≠ .dir sub) :
    ¬ Stuck lang entries name := by
  rintro (long | ⟨sub, here, -⟩)
  · omega
  · rw [found] at here
    exact leaf sub (Option.some.inj here)

/-- The walk fails exactly at such a name. -/
theorem walk_isOk_iff {display : Bytes} {names : List Bytes} {tree : Tree}
    (proper : Proper entries) : (walk lang entries display rel names tree).isOk ↔
      ∀ name ∈ names, ¬ Stuck lang entries name := by
  have skip {entries : Entries} {name : Bytes} {names : List Bytes} {ok : Prop}
      (free : ¬ Stuck lang entries name) (rest : ok ↔ ∀ name ∈ names, ¬ Stuck lang entries name) :
      ok ↔ ∀ other ∈ name :: names, ¬ Stuck lang entries other := by
    rw [List.forall_mem_cons, and_iff_right free, rest]
  have stop {entries : Entries} {name : Bytes} {names : List Bytes} {text : Bytes}
      (stuck : Stuck lang entries name) : (Except.error text : Except Bytes Tree).isOk ↔
        ∀ other ∈ name :: names, ¬ Stuck lang entries other := by
    refine iff_of_false Bool.false_ne_true fun free => ?_
    exact free name List.mem_cons_self stuck
  fun_induction walk lang entries display rel names tree with
  | case1 =>
    refine iff_of_true rfl ?_
    rintro name ⟨⟩
  | case2 entries display rel name names tree dots ih =>
    refine skip ?_ (ih proper)
    rintro (long | ⟨sub, found, -⟩)
    · rcases dots with rfl | rfl
      · exact absurd long (by decide)
      · exact absurd long (by decide)
    · have named := proper.named (mem_of_lookup found)
      rcases dots with one | two
      · exact named.dots.1 one
      · exact named.dots.2 two
  | case3 entries display rel name names tree dots failed ih =>
    refine skip ?_ (ih proper)
    rcases of_statAt_error failed with ⟨other, -⟩ | ⟨-, short, none⟩
    · exact absurd rfl other
    · rintro (long | ⟨sub, found, -⟩)
      · omega
      · rw [none] at found
        cases found
  | case4 entries display rel name names tree dots errno failed other =>
    rcases of_statAt_error failed with ⟨-, long⟩ | ⟨missing, -, -⟩
    · exact stop (Or.inl long)
    · exact absurd missing other
  | case5 entries display rel name names tree dots info stat ih =>
    obtain ⟨short, found⟩ := statAt_eq_ok_iff.mp stat
    exact skip (not_stuck_of_lookup short found fun sub same => by cases same) (ih proper)
  | case6 entries display rel name names tree dots sub stat middle walked ihSub ih =>
    obtain ⟨short, found⟩ := statAt_eq_ok_iff.mp stat
    have below := proper.sub (mem_of_lookup found)
    refine skip ?_ (ih proper)
    rintro (long | ⟨other, here, inside⟩)
    · omega
    · rw [found] at here
      cases here
      obtain ⟨entry, member, stuck⟩ := (tooLong_iff below).mp inside
      rw [walked] at ihSub
      exact (ihSub below).mp rfl entry member stuck
  | case7 entries display rel name names tree dots sub stat text walked ihSub =>
    obtain ⟨short, found⟩ := statAt_eq_ok_iff.mp stat
    have below := proper.sub (mem_of_lookup found)
    refine stop (Or.inr ⟨sub, found, (tooLong_iff below).mpr ?_⟩)
    by_contra free
    rw [walked] at ihSub
    cases (ihSub below).mpr fun entry member stuck => free ⟨entry, member, stuck⟩
  | case8 entries display rel name names tree dots stat ih =>
    obtain ⟨short, found⟩ := statAt_eq_ok_iff.mp stat
    exact skip (not_stuck_of_lookup short found fun sub same => by cases same) (ih proper)

theorem scan_isOk_iff (dir : Directory) (path : Bytes) :
    (scan lang dir path).isOk ↔ ¬ TooLong lang dir.entries := by
  rw [scan, walk_isOk_iff dir.proper, tooLong_iff dir.proper, not_exists]
  exact forall_congr' fun name => not_and.symm

/-- C++ and Go come to no name that is too long. -/
theorem not_tooLong (other : lang ≠ .rust) (proper : Proper entries) : ¬ TooLong lang entries := by
  have same (name : Bytes) : shown lang name = name := by
    cases lang with
    | rust => exact absurd rfl other
    | cpp | go => rfl
  intro long
  induction long with
  | here member long =>
    rw [same] at long
    exact absurd (proper.named member).short (Nat.not_le.mpr long)
  | deeper member _ _ ih => exact ih (proper.sub member)

end Walk

end LinuxSys.Fwatch.V0
