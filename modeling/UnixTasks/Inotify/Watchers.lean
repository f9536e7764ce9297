import Mathlib.Data.List.Forall2
import UnixTasks.Inotify.Records

/-!
# Two watchers: inotify/main.c and dir/inotify.c

Both print a line for each event of a directory.  The first looks at the record that its buffer begins with, the second
goes through the whole buffer; if every `read` returns one event, they print the same reports.

* (`inotifyLoop`, `dirLoop`) the two loops around `read`;
* (`Complete`) the reports of the events that create or delete a file, each once and in order;
* (`dirLoop_complete`) the second watcher prints them;
* (`inotifyLoop_complete_iff`) the first does so if and only if the others are the first of what a `read` returns.
-/

namespace UnixTasks.Inotify

open CChar CString ForLoop

/-! ### The two programs -/

/-- How many bytes the watcher of inotify/main.c asks for. -/
def readSize : Nat := 4095

/-- The buffer when `read` has put some bytes into it: the rest stays as it was. -/
def fill (buf bs : List CChar) : List CChar := bs ++ buf.drop bs.length

/-- The body of the loop of inotify/main.c. -/
def reportFirst (buf : List CChar) : List Report :=
  if hasBit buf 0 inCreate then [printf .create "create " (nameAt buf 0) " detected\n"]
  else if hasBit buf 0 inDelete then [printf .delete "delete " (nameAt buf 0) " detected\n"]
  else if hasBit buf 0 inMoveSelf then [printf .move "move " (nameAt buf 0) " detected\n"]
  else []

/-- The loop of inotify/main.c on what `read` returns (`none` for an error, an empty list for 0): what is printed until
it ends, or waits in `read`. -/
def inotifyLoop (buf : List CChar) (out : List Report) : List (Option (List CChar)) → List Report
  | some (b :: bs) :: rs =>
    let buf := fill buf (b :: bs)
    inotifyLoop buf (out ++ reportFirst buf) rs
  | _ => out

/-- The loop of dir/inotify.c, likewise; `event` is a local that keeps its value. -/
def dirLoop (argv1 : List CChar) (fuel : Nat) (buf : List CChar) (event : Nat) (out : List Report) :
    List (Option (List CChar)) → Option (List Report)
  | some (b :: bs) :: rs =>
    let buf := fill buf (b :: bs)
    match walk (reportEvent argv1) buf (b :: bs).length fuel event out with
    | some w => dirLoop argv1 fuel buf w.event w.rest rs
    | none => none
  | _ => some out

/-! ### What is to be printed -/

/-- The reports that an event is to have. -/
def reportsOf (e : InotifyEvent) : List (Kind × InotifyEvent) :=
  (if e.mask &&& inCreate != 0 then [(.create, e)] else []) ++ (if e.mask &&& inDelete != 0 then [(.delete, e)] else [])

/-- The report is of this kind, and names the file of the event. -/
def Names (r : Report) (p : Kind × InotifyEvent) : Prop := r.kind = p.1 ∧ (0 ∈ p.2.name → r.name = cstr p.2.name)

/-- Apart from the lines about the directory itself, these are the reports. -/
def Reported (out : List Report) (ps : List (Kind × InotifyEvent)) : Prop :=
  List.Forall₂ Names (out.filter fun r => r.kind ≠ .move) ps

/-- Every event has its reports. -/
def Complete (out : List Report) (evs : List InotifyEvent) : Prop := Reported out (evs.flatMap reportsOf)

/-- What `read` returns, from the events: none when it fails. -/
def readBytes (r : Option (List InotifyEvent)) : Option (List CChar) := r.map encodeAll

/-- The events of each `read`, up to the one that ends the loops. -/
def batches : List (Option (List InotifyEvent)) → List (List InotifyEvent)
  | some (e :: es) :: rs => (e :: es) :: batches rs
  | _ => []

/-- Only the first event of what a `read` returns creates or deletes a file, and it does one of the two. -/
def OnlyFirst : List InotifyEvent → Prop
  | [] => True
  | e :: es => (reportsOf e).length ≤ 1 ∧ ∀ e' ∈ es, reportsOf e' = []

instance : DecidablePred OnlyFirst
  | [] => inferInstanceAs (Decidable True)
  | _ :: _ => inferInstanceAs (Decidable (_ ∧ _))

private theorem batches_cons (e : InotifyEvent) (es : List InotifyEvent) (rs : List (Option (List InotifyEvent))) :
    batches (some (e :: es) :: rs) = (e :: es) :: batches rs := rfl

/-- What is read is nothing, or begins with an error or a 0, or with events. -/
@[elab_as_elim]
theorem reads_induction {motive : List (Option (List InotifyEvent)) → Prop}
    (ends : ∀ rs, batches rs = [] → motive rs) (cons : ∀ e es rs, motive rs → motive (some (e :: es) :: rs)) :
    ∀ rs, motive rs
  | [] => ends [] rfl
  | none :: rs => ends (none :: rs) rfl
  | some [] :: rs => ends (some [] :: rs) rfl
  | some (e :: es) :: rs => cons e es rs (reads_induction ends cons rs)

/-- The loops end, or wait, where there is no event to read. -/
theorem loops_end {rs : List (Option (List InotifyEvent))} (h : batches rs = []) (argv1 buf : List CChar)
    (fuel event : Nat) (out : List Report) :
    inotifyLoop buf out (rs.map readBytes) = out ∧
      dirLoop argv1 fuel buf event out (rs.map readBytes) = some out := by
  match rs with
  | [] | none :: _ | some [] :: _ => exact ⟨rfl, rfl⟩
  | some (_ :: _) :: _ => cases h

private theorem encode_ne_nil (e : InotifyEvent) : encode e ≠ [] := by
  intro h
  have hlen := length_encode e
  rw [h, headerSize, List.length_nil] at hlen
  omega

/-- A `read` that returns an event does not return 0. -/
private theorem exists_encodeAll_cons (e : InotifyEvent) (es : List InotifyEvent) :
    ∃ b bs, encodeAll (e :: es) = b :: bs := by
  refine List.exists_cons_of_ne_nil ?_
  rw [encodeAll, List.flatMap_cons]
  exact List.append_ne_nil_of_left_ne_nil (encode_ne_nil e) _

/-- A record has a byte at least. -/
private theorem length_le_encodeAll (evs : List InotifyEvent) : evs.length ≤ (encodeAll evs).length := by
  induction evs with
  | nil => exact Nat.le_refl _
  | cons e evs ih =>
    have hcons : encodeAll (e :: evs) = encode e ++ encodeAll evs := List.flatMap_cons
    rw [hcons, List.length_append, length_encode, headerSize, List.length_cons]
    omega

@[simp] theorem printf_kind (kind : Kind) (before : String) (name : List CChar) (behind : String) :
    (printf kind before name behind).kind = kind := rfl

/-- A line that may be printed. -/
theorem Reported.line {out : List Report} {ps : List (Kind × InotifyEvent)} (h : Reported out ps) (b : Bool)
    {r : Report} {p : Kind × InotifyEvent} (hr : r.kind ≠ .move) (hp : Names r p) :
    Reported (if b then out ++ [r] else out) (ps ++ if b then [p] else []) := by
  cases b with
  | false => simpa using h
  | true =>
    unfold Reported
    rw [if_pos rfl, if_pos rfl, List.filter_append, List.filter_cons_of_pos (by simpa using hr), List.filter_nil]
    exact List.rel_append h (.cons hp .nil)

/-- A line about the directory itself. -/
theorem Reported.move {out : List Report} {ps : List (Kind × InotifyEvent)} (h : Reported out ps) (b : Bool)
    {r : Report} (hr : r.kind = .move) : Reported (if b then out ++ [r] else out) ps := by
  cases b with
  | false => exact h
  | true =>
    unfold Reported
    rw [if_pos rfl, List.filter_append, List.filter_cons_of_neg (by simpa using hr), List.filter_nil, List.append_nil]
    exact h

/-! ### The watcher of dir/inotify.c -/

section Dir

variable {argv1 buf rest : List CChar} {event : Nat} {e : InotifyEvent}

private theorem hasBit_eq (h : buf.drop event = encode e ++ rest) (bit : BitVec 32) :
    hasBit buf event bit = (e.mask &&& bit != 0) := by
  rw [hasBit, maskAt_eq h]

/-- A line with the name of the record. -/
private theorem names_printf (h : buf.drop event = encode e ++ rest) (kind : Kind) (before behind : String) :
    Names (printf kind before (nameAt buf event) behind) (kind, e) := ⟨rfl, fun hnul => nameAt_eq h hnul⟩

/-- The lines that one round prints. -/
private theorem reportEvent_complete (h : buf.drop event = encode e ++ rest) {out : List Report}
    {evs : List InotifyEvent}
    (hout : Complete out evs) : Complete (reportEvent argv1 buf event out).2 (evs ++ [e]) := by
  have hcreate := names_printf h .create "creating " " was detected\n"
  have hdelete := names_printf h .delete "deleting " " was detected\n"
  have hlines := ((hout.line (hasBit buf event inCreate) (by simp) hcreate).line (hasBit buf event inDelete)
    (by simp) hdelete).move (hasBit buf event inMoveSelf) (r := printf .move "moving " argv1 " was detected\n") rfl
  unfold Complete
  rw [List.flatMap_append, List.flatMap_singleton, reportsOf, ← List.append_assoc, ← hasBit_eq h, ← hasBit_eq h]
  exact hlines

/-- What the loop over the buffer prints. -/
private theorem walk_complete {stale : List CChar} {fuel : Nat} {prev evs : List InotifyEvent} {out : List Report}
    (hfits : (encodeAll evs).length ≤ bufSize) (hfuel : evs.length < fuel) (hout : Complete out prev) :
    ∃ w, walk (reportEvent argv1) (encodeAll evs ++ stale) (encodeAll evs).length fuel event out = some w ∧
      Complete w.rest (prev ++ evs) := by
  have hact : ∀ pre e post out, evs = pre ++ e :: post → Complete out (prev ++ pre) →
      Complete (reportEvent argv1 (encodeAll evs ++ stale) (encodeAll pre).length out).2 (prev ++ (pre ++ [e])) := by
    intro pre e post out hsplit hout
    have hdrop : (encodeAll evs ++ stale).drop (encodeAll pre).length = encode e ++ (encodeAll post ++ stale) := by
      rw [hsplit]
      simp [encodeAll]
    rw [← List.append_assoc]
    exact reportEvent_complete hdrop hout
  rw [← List.append_nil prev] at hout
  obtain ⟨w, hwalk, -, -, hcomplete⟩ := walk_visits (R := fun pre out => Complete out (prev ++ pre)) hfits
    (reportEvent_flow argv1 (encodeAll evs ++ stale)) hact hout hfuel
  exact ⟨w, hwalk, hcomplete⟩

/-- The watcher of dir/inotify.c prints the reports of all events. -/
theorem dirLoop_complete {rs : List (Option (List InotifyEvent))} {fuel : Nat} {prev : List InotifyEvent}
    {out : List Report} (hfits : ∀ evs ∈ batches rs, (encodeAll evs).length ≤ bufSize) (hfuel : bufSize < fuel)
    (hout : Complete out prev) :
    ∃ out', dirLoop argv1 fuel buf event out (rs.map readBytes) = some out' ∧
      Complete out' (prev ++ (batches rs).flatten) := by
  induction rs using reads_induction generalizing buf event out prev with
  | ends rs hend =>
    refine ⟨out, (loops_end hend argv1 buf fuel event out).2, ?_⟩
    rwa [hend, List.flatten_nil, List.append_nil]
  | cons e es rs ih =>
    rw [batches_cons, List.forall_mem_cons] at hfits
    have hlen : (e :: es).length < fuel := by
      have hle := length_le_encodeAll (e :: es)
      omega
    obtain ⟨b, bs, hbytes⟩ := exists_encodeAll_cons e es
    have hwalked : ∃ w, walk (reportEvent argv1) (fill buf (encodeAll (e :: es))) (encodeAll (e :: es)).length fuel
        event out = some w ∧ Complete w.rest (prev ++ e :: es) := walk_complete hfits.1 hlen hout
    obtain ⟨w, hwalk, hw⟩ := hwalked
    have hrest : ∃ out', dirLoop argv1 fuel (fill buf (encodeAll (e :: es))) w.event w.rest (rs.map readBytes) =
        some out' ∧ Complete out' (prev ++ e :: es ++ (batches rs).flatten) := ih hfits.2 hw
    obtain ⟨out', hloop, hout'⟩ := hrest
    refine ⟨out', ?_, ?_⟩
    · rw [hbytes] at hwalk hloop
      rw [List.map_cons, readBytes, Option.map_some, hbytes, dirLoop, hwalk]
      exact hloop
    · rw [batches_cons, List.flatten_cons, ← List.append_assoc]
      exact hout'

end Dir

/-! ### The watcher of inotify/main.c -/

/-- The report that the first event of what a `read` returns gets. -/
def firstReport : List InotifyEvent → List (Kind × InotifyEvent)
  | [] => []
  | e :: _ => (reportsOf e).take 1

private theorem reportFirst_reported {buf rest : List CChar} {e : InotifyEvent} (h : buf = encode e ++ rest) :
    Reported (reportFirst buf) ((reportsOf e).take 1) := by
  have hdrop : buf.drop 0 = encode e ++ rest := by rw [List.drop_zero, h]
  unfold reportFirst reportsOf
  rw [hasBit_eq hdrop, hasBit_eq hdrop, hasBit_eq hdrop]
  cases e.mask &&& inCreate != 0 with
  | true => exact .cons (names_printf hdrop .create "create " " detected\n") .nil
  | false =>
    cases e.mask &&& inDelete != 0 with
    | true => exact .cons (names_printf hdrop .delete "delete " " detected\n") .nil
    | false => cases e.mask &&& inMoveSelf != 0 <;> exact .nil

private theorem inotifyLoop_reported {rs : List (Option (List InotifyEvent))} {buf : List CChar} {out : List Report}
    {ps : List (Kind × InotifyEvent)} (hout : Reported out ps) :
    Reported (inotifyLoop buf out (rs.map readBytes)) (ps ++ (batches rs).flatMap firstReport) := by
  induction rs using reads_induction generalizing buf out ps with
  | ends rs hend =>
    rw [hend, List.flatMap_nil, List.append_nil, (loops_end hend [] buf 0 0 out).1]
    exact hout
  | cons e es rs ih =>
    obtain ⟨b, bs, hbytes⟩ := exists_encodeAll_cons e es
    have hfill : fill buf (b :: bs) = encode e ++ (encodeAll es ++ buf.drop (b :: bs).length) := by
      rw [fill, ← hbytes, encodeAll, List.flatMap_cons, List.append_assoc]
      rfl
    have hnext : Reported (out ++ reportFirst (fill buf (b :: bs))) (ps ++ (reportsOf e).take 1) := by
      unfold Reported
      rw [List.filter_append]
      exact List.rel_append hout (reportFirst_reported hfill)
    rw [List.map_cons, readBytes, Option.map_some, hbytes, inotifyLoop, batches_cons, List.flatMap_cons,
      ← List.append_assoc]
    exact ih hnext

/-- No more reports are printed than there are, and as many exactly when there is nothing behind the first. -/
private theorem length_firstReport (evs : List InotifyEvent) :
    (firstReport evs).length ≤ (evs.flatMap reportsOf).length ∧
      ((firstReport evs).length = (evs.flatMap reportsOf).length ↔ OnlyFirst evs) := by
  cases evs with
  | nil => exact ⟨Nat.le_refl _, iff_of_true rfl trivial⟩
  | cons e es =>
    have hnone : (es.flatMap reportsOf).length = 0 ↔ ∀ e' ∈ es, reportsOf e' = [] := by
      rw [List.length_eq_zero_iff, List.flatMap_eq_nil_iff]
    rw [firstReport, OnlyFirst, List.flatMap_cons, List.length_append, List.length_take, ← hnone]
    omega

private theorem length_firstReports (bs : List (List InotifyEvent)) :
    (bs.flatMap firstReport).length ≤ (bs.flatten.flatMap reportsOf).length ∧
      ((bs.flatMap firstReport).length = (bs.flatten.flatMap reportsOf).length ↔ ∀ evs ∈ bs, OnlyFirst evs) := by
  induction bs with
  | nil => exact ⟨Nat.le_refl _, iff_of_true rfl (by simp)⟩
  | cons evs bs ih =>
    obtain ⟨hle, hiff⟩ := length_firstReport evs
    rw [List.flatMap_cons, List.flatten_cons, List.flatMap_append, List.length_append, List.length_append,
      List.forall_mem_cons, ← hiff, ← ih.2]
    omega

private theorem firstReport_eq {evs : List InotifyEvent} (h : OnlyFirst evs) :
    firstReport evs = evs.flatMap reportsOf := by
  cases evs with
  | nil => rfl
  | cons e es =>
    rw [firstReport, List.flatMap_cons, List.flatMap_eq_nil_iff.2 h.2, List.append_nil, List.take_of_length_le h.1]

private theorem flatMap_firstReport {bs : List (List InotifyEvent)} (h : ∀ evs ∈ bs, OnlyFirst evs) :
    bs.flatMap firstReport = bs.flatten.flatMap reportsOf := by
  induction bs with
  | nil => rfl
  | cons evs bs ih =>
    rw [List.forall_mem_cons] at h
    rw [List.flatMap_cons, List.flatten_cons, List.flatMap_append, firstReport_eq h.1, ih h.2]

/-- On the same reads, the watcher of dir/inotify.c prints the reports of all events, and the one of inotify/main.c does
if and only if in what each `read` returns only the first event creates or deletes a file. -/
theorem inotifyLoop_complete_iff (rs : List (Option (List InotifyEvent)))
    (hfits : ∀ evs ∈ batches rs, (encodeAll evs).length ≤ readSize) (buf buf' argv1 : List CChar) (event fuel : Nat)
    (hfuel : bufSize < fuel) :
    (∃ out, dirLoop argv1 fuel buf' event [] (rs.map readBytes) = some out ∧ Complete out (batches rs).flatten) ∧
    (Complete (inotifyLoop buf [] (rs.map readBytes)) (batches rs).flatten ↔ ∀ evs ∈ batches rs, OnlyFirst evs) := by
  constructor
  · have hstart : Complete [] [] := .nil
    exact dirLoop_complete (fun evs hevs => (hfits evs hevs).trans (by decide)) hfuel hstart
  · have hstart : Reported [] [] := .nil
    have hprinted : Reported (inotifyLoop buf [] (rs.map readBytes)) ((batches rs).flatMap firstReport) :=
      inotifyLoop_reported hstart
    constructor
    · intro hcomplete
      rw [← (length_firstReports (batches rs)).2, ← hprinted.length_eq, ← hcomplete.length_eq]
    · intro honly
      unfold Complete
      rw [← flatMap_firstReport honly]
      exact hprinted

/-- A file is created and later on another one is deleted. -/
theorem inotifyLoop_complete_iff_two :
    (∃ out, dirLoop [100] 4097 [] 0 [] ([some [⟨1, inCreate, 0, [97, 0]⟩], some [⟨1, inDelete, 0, [98, 0]⟩]].map
        readBytes) = some out ∧
      Complete out (batches [some [⟨1, inCreate, 0, [97, 0]⟩], some [⟨1, inDelete, 0, [98, 0]⟩]]).flatten) ∧
    (Complete (inotifyLoop [] [] ([some [⟨1, inCreate, 0, [97, 0]⟩], some [⟨1, inDelete, 0, [98, 0]⟩]].map readBytes))
        (batches [some [⟨1, inCreate, 0, [97, 0]⟩], some [⟨1, inDelete, 0, [98, 0]⟩]]).flatten ↔
      ∀ evs ∈ batches [some [⟨1, inCreate, 0, [97, 0]⟩], some [⟨1, inDelete, 0, [98, 0]⟩]], OnlyFirst evs) :=
  inotifyLoop_complete_iff _ (by decide) [] [] [100] 0 4097 (by decide)

/-- Two files are created before the first `read`: one report is missing. -/
theorem report_missing :
    (encodeAll [⟨1, inCreate, 0, [97, 0]⟩, ⟨1, inCreate, 0, [98, 0]⟩]).length ≤ readSize ∧
    (∃ out, dirLoop [100] 4097 [] 0 [] ([some [⟨1, inCreate, 0, [97, 0]⟩, ⟨1, inCreate, 0, [98, 0]⟩]].map
        readBytes) = some out ∧ out.map Report.name = [[97], [98]]) ∧
    (inotifyLoop [] [] ([some [⟨1, inCreate, 0, [97, 0]⟩, ⟨1, inCreate, 0, [98, 0]⟩]].map readBytes)).map
      Report.name = [[97]] ∧
    ¬ Complete (inotifyLoop [] [] ([some [⟨1, inCreate, 0, [97, 0]⟩, ⟨1, inCreate, 0, [98, 0]⟩]].map readBytes))
      [⟨1, inCreate, 0, [97, 0]⟩, ⟨1, inCreate, 0, [98, 0]⟩] := by
  refine ⟨by decide, ⟨_, rfl, by decide⟩, by decide, fun h => ?_⟩
  exact absurd h.length_eq (by decide)

end UnixTasks.Inotify
