import Mathlib.Data.List.TakeWhile
import ScopeResolution.Pipeline.Pass
import ScopeResolution.Proofs.Names.Members

namespace ScopeResolution

namespace Encoding

def Fits (e : Encoding) (text : String) : Prop :=
  ∀ c ∈ text.toList, e.holds c = true

instance (e : Encoding) (text : String) : Decidable (e.Fits text) :=
  inferInstanceAs (Decidable (∀ c ∈ text.toList, e.holds c = true))

theorem fault?_of_fits {e : Encoding} {text : String} (h : e.Fits text) : e.fault? text = none := by
  rw [fault?, List.dropWhile_eq_nil_iff.2 h]

theorem exists_fault_of_unfit {e : Encoding} {text : String} (h : ¬ e.Fits text) :
    ∃ fault, e.fault? text = some fault ∧ fault.category = .encoding := by
  unfold fault?
  split
  · rename_i none
    exact absurd (List.dropWhile_eq_nil_iff.1 none) h
  · exact ⟨_, rfl, rfl⟩

end Encoding

namespace Files

structure Becomes (fs : Files) (name text : String) (fs' : Files) : Prop where
  here : read? name fs'.entries = some text
  others : ∀ other ≠ name, read? other fs'.entries = read? other fs.entries
  encoding : fs'.encoding = fs.encoding

variable {name other text : String} {fs fs' : Files}

theorem read?_store_self (entries : List (String × String)) :
    read? name (store name text entries) = some text := by
  induction entries with
  | nil => exact if_pos rfl
  | cons e rest ih =>
      rw [store]
      split
      · rename_i here
        exact if_pos here
      · rename_i apart
        exact (if_neg apart).trans ih

theorem read?_store_of_ne (apart : other ≠ name) (entries : List (String × String)) :
    read? other (store name text entries) = read? other entries := by
  induction entries with
  | nil => exact if_neg fun same => apart same.symm
  | cons e rest ih =>
      rw [store]
      split
      · rename_i here
        have passed : e.1 ≠ other := fun same => apart (same.symm.trans here)
        exact (if_neg passed).trans (if_neg passed).symm
      · rw [read?, read?, ih]

theorem becomes_write (fs : Files) (name text : String) :
    fs.Becomes name text (fs.write name text) :=
  ⟨read?_store_self _, fun _ apart => read?_store_of_ne apart _, rfl⟩

theorem Becomes.text_eq (h : fs.Becomes name text fs') : fs'.text name = text := by
  rw [Files.text, h.here]
  rfl

def kept (fs : Files) (name : String) (append : Bool) : String :=
  if append then fs.text name else ""

theorem deliver_of_unfit (name : String) (append : Bool) {fault : Fault}
    (refused : fs.encoding.fault? text = some fault) :
    ∃ fs', fs.deliver name append text = (.error fault, fs') ∧
      fs.Becomes name (fs.kept name append) fs' := by
  refine ⟨_, ?_, becomes_write fs name (fs.kept name append)⟩
  rw [deliver, refused]
  rfl

theorem deliver_of_fits (name : String) (append : Bool) (fits : fs.encoding.Fits text) :
    ∃ fs', fs.deliver name append text = (.ok (), fs') ∧
      fs.Becomes name (fs.kept name append ++ text) fs' := by
  have opened : fs.Becomes name (fs.kept name append) (fs.opened name append) :=
    becomes_write fs name _
  have written := becomes_write (fs.opened name append) name (fs.kept name append ++ text)
  refine ⟨_, ?_, written.here, fun other apart => ?_, rfl⟩
  · rw [deliver, Encoding.fault?_of_fits fits, opened.text_eq]
  · exact (written.others other apart).trans (opened.others other apart)

end Files

structure Dump where
  options : DebugOptions
  tree : Datum
  metadata : Dictionary

namespace Dump

def text (d : Dump) : Except Fault String :=
  d.options.text d.tree d.metadata

def Notes (p : Datum × Datum) (line : String) : Prop :=
  ∃ key value, p.1.ShownAs key ∧ p.2.rendered = .ok value ∧ line = key ++ " = " ++ value

def Part (asked : Bool) (title : String) (Lines : List String → Prop) (s : String) : Prop :=
  if asked then ∃ lines, Lines lines ∧
    s = "-- " ++ title ++ " --\n" ++ String.join (lines.map (· ++ "\n"))
  else s = ""

def Tells (d : Dump) (t : String) : Prop :=
  ∃ ast names notes, t = ast ++ names ++ notes ∧
    Part d.options.ast "ast" (fun ls => ∃ r, d.tree.rendered = .ok r ∧ ls = [r]) ast ∧
    Part d.options.names "names" (fun ls => Names.listing d.tree = .ok ls) names ∧
    Part d.options.metadata "metadata" (List.Forall₂ Notes d.metadata.entries) notes

section Text

def part (asked : Bool) (title : String) (lines : Except Fault (List String)) :
    Except Fault String :=
  if asked then lines.map (DebugOptions.titled title) else .ok ""

theorem part_iff (asked : Bool) (title s : String) {Lines : List String → Prop}
    {x : Except Fault (List String)} (told : ∀ ls, x = .ok ls ↔ Lines ls) :
    part asked title x = .ok s ↔ Part asked title Lines s := by
  cases asked with
  | false => exact ⟨fun h => (Except.ok.inj h).symm, fun h => congrArg Except.ok h.symm⟩
  | true =>
      constructor
      · intro shown
        cases x with
        | error e => cases shown
        | ok ls => exact ⟨ls, (told ls).1 rfl, (Except.ok.inj shown).symm⟩
      · rintro ⟨ls, lines, rfl⟩
        rw [(told ls).2 lines]
        rfl

theorem joined_iff (x y z : Except Fault String) (t : String) :
    (do return (← x) ++ (← y) ++ (← z) : Except Fault String) = .ok t ↔
      ∃ a b c, t = a ++ b ++ c ∧ x = .ok a ∧ y = .ok b ∧ z = .ok c := by
  cases x <;> cases y <;> cases z <;> simp [bind, Except.bind, pure, Except.pure, eq_comm]

theorem mapM_eq_ok_iff {α β : Type} {f : α → Except Fault β} {R : α → β → Prop}
    (h : ∀ a b, f a = .ok b ↔ R a b) (xs : List α) (ys : List β) :
    xs.mapM f = .ok ys ↔ List.Forall₂ R xs ys := by
  induction xs generalizing ys with
  | nil =>
      rw [List.mapM_nil, List.forall₂_nil_left_iff]
      exact ⟨fun same => (Except.ok.inj same).symm, fun same => congrArg Except.ok same.symm⟩
  | cons x xs ih =>
      rw [List.mapM_cons, List.forall₂_cons_left_iff]
      constructor
      · intro all
        cases first : f x with
        | error e => rw [first] at all; cases all
        | ok y =>
            cases others : xs.mapM f with
            | error e => rw [first, others] at all; cases all
            | ok zs =>
                rw [first, others] at all
                cases all
                exact ⟨y, zs, (h x y).1 first, (ih zs).1 others, rfl⟩
      · rintro ⟨y, zs, first, others, rfl⟩
        rw [(h x y).2 first, (ih zs).2 others]
        rfl

theorem metadataLine_iff (p : Datum × Datum) (line : String) :
    (do return (← p.1.displayed) ++ " = " ++ (← p.2.rendered) : Except Fault String) = .ok line ↔
      Notes p line := by
  rw [Notes]
  simp only [← Datum.displayed_eq_ok_iff]
  cases p.1.displayed <;> cases p.2.rendered <;>
    simp [bind, Except.bind, pure, Except.pure, eq_comm]

theorem text_eq_ok_iff (d : Dump) (t : String) : d.text = .ok t ↔ d.Tells t := by
  have tree (ls : List String) : (d.tree.rendered.map fun r => [r]) = .ok ls ↔
      ∃ r, d.tree.rendered = .ok r ∧ ls = [r] := by
    cases d.tree.rendered <;> simp [Except.map, eq_comm]
  have notes (ls : List String) : DebugOptions.metadataLines d.metadata = .ok ls ↔
      List.Forall₂ Notes d.metadata.entries ls :=
    mapM_eq_ok_iff metadataLine_iff d.metadata.entries ls
  have parts : d.text = (do
      return (← part d.options.ast "ast" (d.tree.rendered.map fun r => [r])) ++
        (← part d.options.names "names" (Names.listing d.tree)) ++
        (← part d.options.metadata "metadata" (DebugOptions.metadataLines d.metadata))) := by
    rw [text, DebugOptions.text]
    cases d.options.ast <;> cases d.options.names <;> cases d.options.metadata <;>
      cases d.tree.rendered <;> rfl
  rw [parts, joined_iff]
  refine exists_congr fun ast => exists_congr fun names => exists_congr fun rest => ?_
  rw [part_iff _ _ _ tree, part_iff _ _ _ fun ls => Iff.rfl, part_iff _ _ _ notes]

end Text

def perform (d : Dump) (w : Workspace) : Except Fault Datum × Workspace :=
  (Pass.debug d.options).apply d.tree { w with metadata := d.metadata }

def after (dumps : List Dump) (w : Workspace) : Workspace :=
  dumps.foldl (fun w d => (d.perform w).2) w

/-- What a run may come to, and what it leaves: all as it was, its whole text on the terminal or in
a file, or a file that was opened for a text that cannot be written to it. -/
inductive Delivers (d : Dump) (w : Workspace) : Except Fault Datum × Workspace → Prop
  | failed {fault : Fault} (text : d.text = .error fault) :
      d.Delivers w (.error fault, { w with metadata := d.metadata })
  | unprinted {t : String} {fault : Fault} (text : d.text = .ok t) (place : d.options.file = none)
      (unfit : ¬ w.terminal.Fits t) (encoding : fault.category = .encoding) :
      d.Delivers w (.error fault, { w with metadata := d.metadata })
  | printed {t : String} (text : d.text = .ok t) (place : d.options.file = none)
      (fits : w.terminal.Fits t) :
      d.Delivers w (.ok d.tree, { w with metadata := d.metadata, printed := w.printed ++ t })
  | unwritten {t name : String} {fault : Fault} {files : Files} (text : d.text = .ok t)
      (place : d.options.file = some name) (unfit : ¬ w.files.encoding.Fits t)
      (encoding : fault.category = .encoding)
      (opened : w.files.Becomes name (w.files.kept name (d.options.append = some true)) files) :
      d.Delivers w (.error fault, { w with metadata := d.metadata, files })
  | written {t name : String} {files : Files} (text : d.text = .ok t)
      (place : d.options.file = some name) (fits : w.files.encoding.Fits t)
      (becomes :
        w.files.Becomes name (w.files.kept name (d.options.append = some true) ++ t) files) :
      d.Delivers w (.ok d.tree, { w with metadata := d.metadata, files })

def sent (e : Encoding) (place : Option String) (d : Dump) : Option String :=
  if d.options.file = place then d.text.toOption.filter (e.Fits ·) else none

def texts (e : Encoding) (place : Option String) (dumps : List Dump) : List String :=
  dumps.filterMap (sent e place)

def Opens (d : Dump) (name : String) : Prop :=
  d.options.file = some name ∧ ∃ t, d.text = .ok t

def Restarts (d : Dump) (name : String) : Prop :=
  d.Opens name ∧ d.options.append ≠ some true

section Runs

variable {d : Dump} {w : Workspace} {name : String}

theorem perform_of_error {fault : Fault} (failed : d.text = .error fault) :
    d.perform w = (.error fault, { w with metadata := d.metadata }) := by
  have shown : d.options.text d.tree d.metadata = .error fault := failed
  simp only [perform, Pass.apply, shown]

theorem perform_of_ok {t : String} (text : d.text = .ok t) :
    d.perform w =
      ((d.options.send t { w with metadata := d.metadata }).1.map fun _ => d.tree,
        (d.options.send t { w with metadata := d.metadata }).2) := by
  have shown : d.options.text d.tree d.metadata = .ok t := text
  simp only [perform, Pass.apply, shown]
  rcases d.options.send t { w with metadata := d.metadata } with ⟨out, w'⟩
  cases out <;> rfl

theorem delivers (d : Dump) (w : Workspace) : d.Delivers w (d.perform w) := by
  cases shown : d.text with
  | error fault =>
      rw [perform_of_error shown]
      exact .failed shown
  | ok t =>
      rw [perform_of_ok shown, DebugOptions.send]
      cases place : d.options.file with
      | none =>
          by_cases fits : w.terminal.Fits t
          · simp only [Encoding.fault?_of_fits fits]
            exact .printed shown place fits
          · obtain ⟨fault, refused, encoding⟩ := Encoding.exists_fault_of_unfit fits
            simp only [refused]
            exact .unprinted shown place fits encoding
      | some name =>
          by_cases fits : w.files.encoding.Fits t
          · obtain ⟨files, written, becomes⟩ :=
              Files.deliver_of_fits name (d.options.append = some true) fits
            simp only [written]
            exact .written shown place fits becomes
          · obtain ⟨fault, refused, encoding⟩ := Encoding.exists_fault_of_unfit fits
            obtain ⟨files, opened, becomes⟩ :=
              Files.deliver_of_unfit name (d.options.append = some true) refused
            simp only [opened]
            exact .unwritten shown place fits encoding becomes

theorem sent_of_error {fault : Fault} (failed : d.text = .error fault) (e : Encoding)
    (place : Option String) : d.sent e place = none := by
  rw [sent, failed]
  exact ite_self none

theorem sent_of_ok {t : String} (text : d.text = .ok t) (e : Encoding) (place : Option String) :
    d.sent e place = if d.options.file = place ∧ e.Fits t then some t else none := by
  rw [sent, text, ite_and]
  by_cases fits : e.Fits t <;> simp [Except.toOption, Option.filter, fits]

theorem not_opens_of_error {fault : Fault} (failed : d.text = .error fault) :
    ¬ d.Opens name := by
  rintro ⟨_, t, text⟩
  rw [failed] at text
  cases text

theorem opens_iff {t : String} (text : d.text = .ok t) :
    d.Opens name ↔ d.options.file = some name :=
  ⟨And.left, fun place => ⟨place, t, text⟩⟩

theorem encodings_perform (d : Dump) (w : Workspace) :
    (d.perform w).2.terminal = w.terminal ∧ (d.perform w).2.files.encoding = w.files.encoding := by
  have delivered := d.delivers w
  generalize d.perform w = outcome at delivered ⊢
  cases delivered with
  | failed | unprinted | printed => exact ⟨rfl, rfl⟩
  | unwritten _ _ _ _ opened => exact ⟨rfl, opened.encoding⟩
  | written _ _ _ becomes => exact ⟨rfl, becomes.encoding⟩

theorem printed_perform (d : Dump) (w : Workspace) :
    (d.perform w).2.printed = w.printed ++ String.join (d.sent w.terminal none).toList := by
  have delivered := d.delivers w
  generalize d.perform w = outcome at delivered ⊢
  cases delivered with
  | failed text => simp [sent_of_error text]
  | unprinted text place unfit => simp [sent_of_ok text, place, unfit]
  | printed text place fits => simp [sent_of_ok text, place, fits]
  | unwritten text place => simp [sent_of_ok text, place]
  | written text place => simp [sent_of_ok text, place]

theorem read?_perform_of_not_opens (other : ¬ d.Opens name) (w : Workspace) :
    Files.read? name (d.perform w).2.files.entries = Files.read? name w.files.entries := by
  have delivered := d.delivers w
  generalize d.perform w = outcome at delivered ⊢
  cases delivered with
  | failed | unprinted | printed => rfl
  | unwritten text place _ _ opened =>
      exact opened.others name fun same => other ⟨place.trans (congrArg some same.symm), _, text⟩
  | written text place _ becomes =>
      exact becomes.others name fun same => other ⟨place.trans (congrArg some same.symm), _, text⟩

theorem read?_perform_of_opens (opens : d.Opens name) (w : Workspace) :
    Files.read? name (d.perform w).2.files.entries =
      some (w.files.kept name (d.options.append = some true) ++
        String.join (d.sent w.files.encoding (some name)).toList) := by
  obtain ⟨here, t, text⟩ := opens
  have delivered := d.delivers w
  generalize d.perform w = outcome at delivered ⊢
  cases delivered with
  | failed failed => cases text.symm.trans failed
  | unprinted _ place | printed _ place => cases here.symm.trans place
  | unwritten text place unfit _ opened =>
      cases here.symm.trans place
      simp [sent_of_ok text, unfit, opened.here]
  | written text place fits becomes =>
      cases here.symm.trans place
      simp [sent_of_ok text, here, fits, becomes.here]

end Runs

section Sequences

variable {d : Dump} {w : Workspace} {name : String}

theorem encodings_after (dumps : List Dump) (w : Workspace) :
    (after dumps w).terminal = w.terminal ∧
      (after dumps w).files.encoding = w.files.encoding := by
  induction dumps generalizing w with
  | nil => exact ⟨rfl, rfl⟩
  | cons d dumps ih =>
      have first := d.encodings_perform w
      have rest := ih (d.perform w).2
      exact ⟨rest.1.trans first.1, rest.2.trans first.2⟩

theorem printed_after (dumps : List Dump) (w : Workspace) :
    (after dumps w).printed = w.printed ++ String.join (texts w.terminal none dumps) := by
  induction dumps generalizing w with
  | nil => simp [after, texts]
  | cons d dumps ih =>
      have rest := ih (d.perform w).2
      rw [printed_perform, (d.encodings_perform w).1] at rest
      refine rest.trans ?_
      cases sent : d.sent w.terminal none <;> simp [texts, sent, String.append_assoc]

theorem texts_of_not_opens {dumps : List Dump} (none : ∀ d ∈ dumps, ¬ d.Opens name)
    (e : Encoding) : texts e (some name) dumps = [] := by
  refine List.filterMap_eq_nil_iff.2 fun d hd => ?_
  cases text : d.text with
  | error fault => exact sent_of_error text e _
  | ok t =>
      rw [sent_of_ok text]
      exact if_neg fun both => none d hd ⟨both.1, t, text⟩

theorem read?_after_of_not_opens {dumps : List Dump} (none : ∀ d ∈ dumps, ¬ d.Opens name)
    (w : Workspace) :
    Files.read? name (after dumps w).files.entries = Files.read? name w.files.entries := by
  induction dumps generalizing w with
  | nil => rfl
  | cons d dumps ih =>
      rw [List.forall_mem_cons] at none
      exact (ih none.2 _).trans (read?_perform_of_not_opens none.1 w)

theorem text_after_of_appended {dumps : List Dump} (appended : ∀ d ∈ dumps, ¬ d.Restarts name)
    (w : Workspace) :
    (after dumps w).files.text name =
      w.files.text name ++ String.join (texts w.files.encoding (some name) dumps) := by
  induction dumps generalizing w with
  | nil => simp [after, texts]
  | cons d dumps ih =>
      rw [List.forall_mem_cons] at appended
      have rest := ih appended.2 (d.perform w).2
      rw [(d.encodings_perform w).2] at rest
      refine rest.trans ?_
      by_cases opens : d.Opens name
      · have append : d.options.append = some true :=
          Decidable.byContradiction fun restart => appended.1 ⟨opens, restart⟩
        have first := read?_perform_of_opens opens w
        rw [append] at first
        rw [Files.text, first]
        cases sent : d.sent w.files.encoding (some name) <;>
          simp [Files.kept, texts, sent, String.append_assoc]
      · have none : texts w.files.encoding (some name) [d] = [] :=
          texts_of_not_opens (List.forall_mem_singleton.2 opens) _
        have whole : texts w.files.encoding (some name) (d :: dumps) =
            texts w.files.encoding (some name) [d] ++ texts w.files.encoding (some name) dumps :=
          List.filterMap_append (l := [d])
        rw [Files.text, read?_perform_of_not_opens opens, whole, none, List.nil_append]
        rfl

theorem exists_read?_after {dumps : List Dump} (opens : ∃ d ∈ dumps, d.Opens name)
    (w : Workspace) : ∃ t, Files.read? name (after dumps w).files.entries = some t := by
  have kept {dumps : List Dump} {w : Workspace}
      (held : ∃ t, Files.read? name w.files.entries = some t) :
      ∃ t, Files.read? name (after dumps w).files.entries = some t := by
    induction dumps generalizing w with
    | nil => exact held
    | cons d dumps ih =>
        refine ih ?_
        by_cases opens : d.Opens name
        · exact ⟨_, read?_perform_of_opens opens w⟩
        · rwa [read?_perform_of_not_opens opens]
  obtain ⟨d, hd, opens⟩ := opens
  obtain ⟨before, rest, rfl⟩ := List.append_of_mem hd
  have run : after (before ++ d :: rest) w = after rest (d.perform (after before w)).2 := by
    simp [after]
  rw [run]
  exact kept ⟨_, read?_perform_of_opens opens _⟩

theorem read?_after_of_appended {dumps : List Dump} (appended : ∀ d ∈ dumps, ¬ d.Restarts name)
    (opens : ∃ d ∈ dumps, d.Opens name) (w : Workspace) :
    Files.read? name (after dumps w).files.entries =
      some (w.files.text name ++ String.join (texts w.files.encoding (some name) dumps)) := by
  obtain ⟨t, held⟩ := exists_read?_after opens w
  have text := text_after_of_appended appended w
  rw [Files.text, held] at text
  rw [held]
  exact congrArg some text

theorem read?_after_of_restarted {before rest : List Dump} (restarts : d.Restarts name)
    (appended : ∀ e ∈ rest, ¬ e.Restarts name) (w : Workspace) :
    Files.read? name (after (before ++ d :: rest) w).files.entries =
      some (String.join (texts w.files.encoding (some name) (d :: rest))) := by
  have run : after (before ++ d :: rest) w = after rest (d.perform (after before w)).2 := by
    simp [after]
  have opens : ∃ e ∈ before ++ d :: rest, e.Opens name :=
    ⟨d, List.mem_append_right before List.mem_cons_self, restarts.1⟩
  obtain ⟨t, held⟩ := exists_read?_after opens w
  have first := read?_perform_of_opens restarts.1 (after before w)
  have text := text_after_of_appended appended (d.perform (after before w)).2
  rw [← run, Files.text, held, Files.text, first, (d.encodings_perform _).2] at text
  rw [held]
  refine congrArg some (text.trans ?_)
  rw [(encodings_after before w).2]
  cases sent : d.sent w.files.encoding (some name) <;>
    simp [Files.kept, restarts.2, texts, sent]

end Sequences

/-- A run that cannot show some part leaves all as it was. One that can sends its whole text to one
place, or fails there after it opened the file. So after any runs the terminal has got what was sent
there, and a file holds what was sent to it from the last run on that opened it anew, or what it
held before and after that all that was sent to it. -/
theorem delivered (dumps : List Dump) (w : Workspace) :
    (∀ (d : Dump) (t : String), d.text = .ok t ↔ d.Tells t) ∧
    (∀ (d : Dump) (w : Workspace), d.Delivers w (d.perform w)) ∧
    (after dumps w).printed = w.printed ++ String.join (texts w.terminal none dumps) ∧
    ∀ name,
      ((∀ d ∈ dumps, ¬ d.Opens name) →
        Files.read? name (after dumps w).files.entries = Files.read? name w.files.entries) ∧
      ((∀ d ∈ dumps, ¬ d.Restarts name) → (∃ d ∈ dumps, d.Opens name) →
        Files.read? name (after dumps w).files.entries =
          some (w.files.text name ++ String.join (texts w.files.encoding (some name) dumps))) ∧
      ∀ before d rest, dumps = before ++ d :: rest → d.Restarts name →
        (∀ e ∈ rest, ¬ e.Restarts name) →
        Files.read? name (after dumps w).files.entries =
          some (String.join (texts w.files.encoding (some name) (d :: rest))) := by
  refine ⟨text_eq_ok_iff, delivers, printed_after dumps w, fun name => ⟨fun none => ?_,
    fun appended opens => ?_, ?_⟩⟩
  · exact read?_after_of_not_opens none w
  · exact read?_after_of_appended appended opens w
  · rintro before d rest rfl restarts appended
    exact read?_after_of_restarted restarts appended w

def raw : Datum :=
  .node (.builtin .identifierPattern) [.text "x"]

theorem listing_raw : Names.listing raw = .error (.noAttribute (.text "x") "is_global") := by
  have mentioned : raw.mentions = [.name .bind (.text "x")] := by
    rw [Datum.mentions]
    rfl
  obtain ⟨s, gathered, keys⟩ :=
    NameSet.gather_single (.one .bind) .bind rfl (Symbol.ofText "x")
  have collected : raw.names (.one .bind) = .ok s := by
    rw [Datum.names_eq_gather, mentioned]
    exact gathered
  have untold : (Symbol.ofText "x").datum.isGlobal =
      .error (.noAttribute (.text "x") "is_global") := rfl
  have unsorted : raw.localBindings = .error (.noAttribute (.text "x") "is_global") := by
    simp [Datum.localBindings, collected, bind, Except.bind, NameSet.select, keys, untold]
  simp [Names.listing, unsorted, bind, Except.bind]

def ofRaw (names : Bool) (file : Option String) (append : Option Bool) : Dump :=
  ⟨⟨true, names, false, file, append⟩, raw, .empty⟩

theorem interleaved_delivered :
    let line := "-- ast --\nIdentifierPattern(name='x')\n"
    let early := [ofRaw false (some "log") (some true), ofRaw false none none]
    let late := [ofRaw true (some "log") none, ofRaw false none (some true),
      ofRaw false (some "log") (some true)]
    let final := after (early ++ ofRaw false (some "log") (some false) :: late) .empty
    final.printed = line ++ line ∧
      Files.read? "log" final.files.entries = some (line ++ line) ∧
      Files.read? "other" final.files.entries = none := by
  intro line early late final
  have rendered : raw.rendered = .ok "IdentifierPattern(name='x')" := rfl
  have shown (file : Option String) (append : Option Bool) :
      (ofRaw false file append).text = .ok line := by
    simp [text, DebugOptions.text, ofRaw, rendered, Except.map, DebugOptions.titled,
      DebugOptions.lined, line, bind, Except.bind, pure, Except.pure]
  have failed (file : Option String) (append : Option Bool) :
      (ofRaw true file append).text = .error (.noAttribute (.text "x") "is_global") := by
    simp [text, DebugOptions.text, ofRaw, rendered, listing_raw, Except.map, bind, Except.bind]
  have sends (place file : Option String) (append : Option Bool) :
      (ofRaw false file append).sent .utf8 place = if file = place then some line else none := by
    rw [sent_of_ok (shown file append)]
    exact if_congr (and_iff_left fun _ _ => rfl) rfl rfl
  have sends_none (place file : Option String) (append : Option Bool) :
      (ofRaw true file append).sent .utf8 place = none :=
    sent_of_error (failed file append) .utf8 place
  have opens (name : String) (file : Option String) (append : Option Bool) :
      (ofRaw false file append).Opens name ↔ file = some name :=
    opens_iff (shown file append)
  have shut (name : String) (file : Option String) (append : Option Bool) :
      ¬ (ofRaw true file append).Opens name :=
    not_opens_of_error (failed file append)
  have appends (file : Option String) (append : Option Bool) :
      (ofRaw false file append).options.append = append := rfl
  obtain ⟨_, _, printed, held⟩ :=
    delivered (early ++ ofRaw false (some "log") (some false) :: late) .empty
  have restarts : (ofRaw false (some "log") (some false)).Restarts "log" :=
    ⟨(opens _ _ _).2 rfl, by decide⟩
  have goesOn : ∀ e ∈ late, ¬ e.Restarts "log" := by
    simp [late, Restarts, opens, shut, appends]
  have untouched : ∀ e ∈ early ++ ofRaw false (some "log") (some false) :: late,
      ¬ e.Opens "other" := by
    simp [early, late, opens, shut]
  have encoding : Workspace.empty.files.encoding = .utf8 := rfl
  refine ⟨?_, ?_, (held "other").1 untouched⟩
  · refine printed.trans ?_
    simp [Workspace.empty, texts, early, late, sends, sends_none]
  · refine ((held "log").2.2 early _ late rfl restarts goesOn).trans ?_
    simp [encoding, texts, late, sends, sends_none]

theorem unwritten_emptied :
    let w : Workspace := { Workspace.empty with files := ⟨[("log", "old\n")], .ascii⟩ }
    let tree : Datum := .node (.builtin .identifier) [.text "é"]
    let d : Dump := ⟨⟨true, false, false, some "log", none⟩, tree, .empty⟩
    d.text = .ok "-- ast --\nIdentifier(name='é')\n" ∧
      (d.perform w).1 = .error (.unencodable "ascii" 27 ['é'] "ordinal not in range(128)") ∧
      (d.perform w).2.files.entries = [("log", "")] :=
  ⟨rfl, rfl, rfl⟩

end Dump

end ScopeResolution
