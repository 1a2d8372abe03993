import Interpolation.Command.Execution
import Interpolation.Proofs.Document.Loading
import Interpolation.Proofs.Document.Pointer
import Interpolation.Proofs.Manifest.Names
import Interpolation.Proofs.Manifest.Policy

/-!
# What commands print

Before it prints, a command reads files and works on what they hold, and any of this may fail. None
of it prints, so its result is all that matters: a session of this kind is `Silent`, and silent
sessions one after another are silent. A command is a silent session with one behind it that prints.
Therefore what it prints is a function of the files, `Command.answer?`, and where that gives nothing
the command is in trouble and has printed nothing.

For a list the answer has one name to a line. Names have no line ends in them, hence the lines are
the names again.

All of this holds in any `Formats`. With those of the library, manifests and contexts are
well-formed, and so is the document that a resolution prints.
-/

namespace Interpolation

open Text

/-! ## Lines -/

namespace Text

/-- Texts, each with the end of a line. -/
def unlines (texts : List String) : String := String.join (texts.map (· ++ "\n"))

/-- The lines of a text; the last of them need not have an end. -/
def lines (s : String) : List String :=
  let ps := pieces '\n' s.toList
  (if ps.getLast? = some [] then ps.dropLast else ps).map String.ofList

variable {texts : List String}

theorem pieces_unlines (h : ∀ t ∈ texts, '\n' ∉ t.toList) :
    pieces '\n' (unlines texts).toList = texts.map String.toList ++ [[]] := by
  induction texts with
  | nil => rfl
  | cons t texts ih =>
    have ht : '\n' ∉ t.toList := h t List.mem_cons_self
    have hrest := ih fun u hu ↦ h u (List.mem_cons_of_mem t hu)
    rw [unlines] at hrest
    have hend : "\n".toList = ['\n'] := rfl
    rw [unlines, List.map_cons, String.join_cons, String.toList_append, String.toList_append, hend,
      List.append_assoc, List.singleton_append, pieces_append ht, hrest, List.map_cons,
      List.cons_append]

/-- Texts without line ends in them are the lines of what they are put together to. -/
theorem lines_unlines (h : ∀ t ∈ texts, '\n' ∉ t.toList) : lines (unlines texts) = texts := by
  have hcomp : String.ofList ∘ String.toList = id := funext fun _ ↦ String.ofList_toList
  rw [lines, pieces_unlines h]
  simp [hcomp]

end Text

/-! ## Sessions -/

theorem eq_ok_of_toOption {ε α : Type} {answer : Except ε α} {a : α}
    (h : answer.toOption = some a) : answer = .ok a := by
  cases answer with
  | error e => cases h
  | ok b =>
    cases h
    rfl

namespace Session

variable {α β : Type} {x : Session α} {f : α → Session β} {o o' : Output} {a : α} {e : Trouble}

theorem run_bind_of_ok (h : x.run o = (.ok a, o')) : (x >>= f).run o = (f a).run o' := by
  change ExceptT.bindCont f (x.run o).1 (x.run o).2 = _
  rw [h]
  rfl

theorem run_bind_of_error (h : x.run o = (.error e, o')) : (x >>= f).run o = (.error e, o') := by
  change ExceptT.bindCont f (x.run o).1 (x.run o).2 = _
  rw [h]
  rfl

/-- The session prints nothing. It has the given result, or is in trouble if there is none. -/
def Silent (x : Session α) (result : Option α) : Prop :=
  ∀ o, (x.run o).1.toOption = result ∧ (x.run o).2.printed = o.printed

/-- The session prints the given text, or is in trouble and prints nothing if there is none. -/
def Prints (x : Session Unit) (text : Option String) : Prop :=
  ∀ o, (x.run o).1.toOption = text.map (fun _ ↦ ()) ∧
    (x.run o).2.printed = o.printed ++ text.getD ""

variable {result : Option α} {g : α → Option β}

theorem silent_pure (a : α) : Silent (pure a) (some a) := fun _ ↦ ⟨rfl, rfl⟩

theorem silent_throw (t : Trouble) : Silent (throw t : Session α) none := fun _ ↦ ⟨rfl, rfl⟩

theorem silent_log (level : Level) (texts : List String) : Silent (log level texts) (some ()) :=
  fun _ ↦ ⟨rfl, rfl⟩

theorem silent_expect {ε : Type} (trouble : ε → Trouble) (answer : Except ε α) :
    Silent (expect trouble answer) answer.toOption := by
  cases answer with
  | error e => exact silent_throw (trouble e)
  | ok a => exact silent_pure a

theorem prints_print (text : String) : Prints (print text) (some text) := fun _ ↦ ⟨rfl, rfl⟩

/-- After a silent session the next one runs on its result, or there is trouble. -/
theorem Silent.run_bind (hx : Silent x result) (f : α → Session β) (o : Output) :
    ∃ o', o'.printed = o.printed ∧
      ((∃ a, result = some a ∧ (x >>= f).run o = (f a).run o') ∨
        ∃ e, result = none ∧ (x >>= f).run o = (.error e, o')) := by
  obtain ⟨hresult, hprinted⟩ := hx o
  refine ⟨(x.run o).2, hprinted, ?_⟩
  rcases hrun : x.run o with ⟨e | a, o'⟩
  · rw [hrun] at hresult
    exact .inr ⟨e, hresult.symm, run_bind_of_error hrun⟩
  · rw [hrun] at hresult
    exact .inl ⟨a, hresult.symm, run_bind_of_ok hrun⟩

theorem Silent.bind (hx : Silent x result) (hf : ∀ a, Silent (f a) (g a)) :
    Silent (x >>= f) (result.bind g) := by
  intro o
  obtain ⟨o', ho', ⟨a, rfl, hrun⟩ | ⟨e, rfl, hrun⟩⟩ := hx.run_bind f o
  · rw [hrun, ← ho']
    exact hf a o'
  · rw [hrun]
    exact ⟨rfl, ho'⟩

/-- **Printing at the end.** What is printed is made of the result of a silent session. -/
theorem Silent.prints_bind {f : α → Session Unit} {g : α → Option String} (hx : Silent x result)
    (hf : ∀ a, Prints (f a) (g a)) : Prints (x >>= f) (result.bind g) := by
  intro o
  obtain ⟨o', ho', ⟨a, rfl, hrun⟩ | ⟨e, rfl, hrun⟩⟩ := hx.run_bind f o
  · rw [hrun, ← ho']
    exact hf a o'
  · rw [hrun]
    refine ⟨rfl, ?_⟩
    simpa using ho'

/-- Prints what is made of a result, if there is one. -/
theorem prints_expect {ε : Type} (trouble : ε → Trouble) (answer : Except ε α) (text : α → String) :
    Prints (expect trouble answer >>= fun a ↦ print (text a)) (answer.toOption.map text) := by
  rw [Option.map_eq_bind]
  exact (silent_expect trouble answer).prints_bind fun a ↦ prints_print (text a)

end Session

/-! ## Files -/

namespace Files

variable (formats : Formats) (files : Files)

/-- The document in a file. -/
def document? (name : String) : Option Document := (files name).toOption.bind formats.document?

/-- The context in a file; it is empty without one. -/
def context? : Option String → Option Document
  | none => some .empty
  | some name => files.document? formats name

/-- The settings in a file, or the usual ones. -/
def settings? : Option String → Option Settings
  | none => some .default
  | some name => (files name).toOption.bind fun text ↦ (formats.settings text).toOption

variable {files} {d : Document}

/-- **Manifests are well-formed**, if they are read from YAML. -/
theorem wellFormed_of_document? {name : String} (h : files.document? .default name = some d) :
    d.WellFormed := by
  obtain ⟨text, -, htext⟩ := Option.bind_eq_some_iff.mp h
  exact Document.wellFormed_of_ofYaml? htext

/-- Contexts are well-formed, too. -/
theorem wellFormed_of_context? {source : Option String}
    (h : files.context? .default source = some d) : d.WellFormed := by
  cases source with
  | none =>
    cases h
    exact Document.wellFormed_empty
  | some name => exact wellFormed_of_document? h

end Files

namespace Session

variable (formats : Formats) (files : Files)

theorem silent_document (name : String) :
    Silent (document formats files name) (files.document? formats name) := by
  refine (silent_expect _ (files name)).bind fun text ↦ ?_
  cases formats.document? text with
  | none => exact silent_throw _
  | some d => exact (silent_log _ _).bind fun _ ↦ silent_pure d

theorem silent_context (source : Option String) :
    Silent (context formats files source) (files.context? formats source) := by
  cases source with
  | none => exact silent_pure _
  | some name => exact silent_document formats files name

theorem silent_settings (config : Option String) :
    Silent (settings formats files config) (files.settings? formats config) := by
  cases config with
  | none => exact silent_pure _
  | some name =>
    refine (silent_expect _ (files name)).bind fun text ↦ ?_
    rw [← Option.bind_fun_some (formats.settings text).toOption]
    exact (silent_expect _ _).bind fun s ↦ (silent_log _ _).bind fun _ ↦ silent_pure s

end Session

/-! ## Commands -/

namespace Command

open Session

/-- Whether a command asks for a list of names. -/
def isListing : Command → Bool
  | vars _ _ => true
  | secrets _ _ _ => true
  | _ => false

/-- The names that a command lists, if it asks for a list and there is one. -/
def names? (formats : Formats) (files : Files) : Command → Option (List String)
  | vars template scope =>
    ((Template.ofString template).names ((scope.map segments).getD [])).toOption
  | secrets manifest scope config => do
    let d ← files.document? formats manifest
    let s ← files.settings? formats config
    (s.names d (segments scope)).toOption
  | _ => none

/-- The text that a command prints, if it is not in trouble. -/
def answer? (formats : Formats) (files : Files) : Command → Option String
  | render template source lossy => do
    let c ← files.context? formats source
    let t := Template.ofString template
    if lossy then some (unlines [(t.renderLossy c).text])
    else (t.render c).toOption.map fun text ↦ unlines [text]
  | resolve manifest source config preserve => do
    let d ← files.document? formats manifest
    let c ← files.context? formats source
    let s ← files.settings? formats config
    let s := if preserve then s.withPolicy .preserve else s
    (s.resolve d c).toOption.map fun r ↦ formats.text r.document
  | vars template scope => ((vars template scope).names? formats files).map unlines
  | secrets manifest scope config =>
    ((secrets manifest scope config).names? formats files).map unlines

/-- **What a command prints.** -/
theorem prints_perform (formats : Formats) (files : Files) (c : Command) :
    Prints (c.perform formats files) (c.answer? formats files) := by
  cases c with
  | render template source lossy =>
    refine (silent_context formats files source).prints_bind fun c ↦ ?_
    cases lossy with
    | false => exact prints_expect _ _ _
    | true => exact (silent_log _ _).prints_bind fun _ ↦ prints_print _
  | vars template scope => exact prints_expect _ _ _
  | resolve manifest source config preserve =>
    refine (silent_document formats files manifest).prints_bind fun d ↦ ?_
    refine (silent_context formats files source).prints_bind fun c ↦ ?_
    refine (silent_settings formats files config).prints_bind fun s ↦ ?_
    rw [Option.map_eq_bind]
    refine (silent_expect _ _).prints_bind fun r ↦ ?_
    exact (silent_log _ _).prints_bind fun _ ↦ (silent_log _ _).prints_bind fun _ ↦ prints_print _
  | secrets manifest scope config =>
    simp only [answer?, names?, Option.bind_eq_bind, Option.map_bind, Function.comp_def]
    refine (silent_document formats files manifest).prints_bind fun d ↦ ?_
    refine (silent_settings formats files config).prints_bind fun s ↦ ?_
    exact prints_expect _ _ _

variable {formats : Formats} {files : Files} {c : Command}

/-- A command is in trouble just if there is no answer, and prints the answer if there is one. -/
theorem executeWith_spec (formats : Formats) (files : Files) (c : Command) :
    ((c.executeWith formats files).trouble = none ↔ (c.answer? formats files).isSome) ∧
      (c.executeWith formats files).output.printed = (c.answer? formats files).getD "" := by
  obtain ⟨hresult, hprinted⟩ := prints_perform formats files c .empty
  have hempty : Output.empty.printed = "" := rfl
  rw [hempty, String.empty_append] at hprinted
  rw [executeWith]
  rcases hrun : (c.perform formats files).run .empty with ⟨e | u, o⟩
  · rw [hrun] at hresult hprinted
    have hnone : c.answer? formats files = none := Option.map_eq_none_iff.mp hresult.symm
    exact ⟨by simp [hnone], hprinted⟩
  · rw [hrun] at hresult hprinted
    obtain ⟨text, htext, -⟩ := Option.map_eq_some_iff.mp hresult.symm
    exact ⟨by simp [htext], hprinted⟩

/-- **What is resolved is well-formed.** A resolution that is not in trouble has read a well-formed
manifest in a well-formed context, and prints a well-formed document. -/
theorem execute_resolve {manifest : String} {source config : Option String} {preserve : Bool}
    (h : ((resolve manifest source config preserve).execute files).trouble = none) :
    ∃ (d c : Document) (s : Settings) (r : Resolution),
      files.document? .default manifest = some d ∧ files.context? .default source = some c ∧
        d.WellFormed ∧ c.WellFormed ∧ s.resolve d c = .ok r ∧ r.document.WellFormed ∧
        ((resolve manifest source config preserve).execute files).output.printed =
          r.document.toYaml := by
  obtain ⟨htrouble, hprinted⟩ :=
    executeWith_spec .default files (resolve manifest source config preserve)
  obtain ⟨text, htext⟩ := Option.isSome_iff_exists.mp (htrouble.mp h)
  rw [htext, Option.getD_some] at hprinted
  obtain ⟨d, hd, htext⟩ := Option.bind_eq_some_iff.mp htext
  obtain ⟨c, hc, htext⟩ := Option.bind_eq_some_iff.mp htext
  obtain ⟨s, -, htext⟩ := Option.bind_eq_some_iff.mp htext
  obtain ⟨r, hr, rfl⟩ := Option.map_eq_some_iff.mp htext
  have hwf : d.WellFormed := Files.wellFormed_of_document? hd
  exact ⟨d, c, _, r, hd, hc, hwf, Files.wellFormed_of_context? hc, eq_ok_of_toOption hr,
    Settings.wellFormed_of_resolve hwf (eq_ok_of_toOption hr), hprinted⟩

theorem answer?_of_isListing (h : c.isListing) :
    c.answer? formats files = (c.names? formats files).map unlines := by
  cases c with
  | render template source lossy => cases h
  | vars template scope => rfl
  | resolve manifest source config preserve => cases h
  | secrets manifest scope config => rfl

/-- No listed name breaks a line. -/
theorem lines_unlines_of_listed {names : List String} (h : Listed names) :
    Text.lines (unlines names) = names := by
  refine lines_unlines fun n hn hbreak ↦ ?_
  exact absurd ((h.valid n hn).2.1 '\n' hbreak) (by decide)

theorem listed_of_names?_eq_some {names : List String} (h : c.names? formats files = some names) :
    Listed names := by
  cases c with
  | render template source lossy => cases h
  | vars template scope => exact Template.listed_of_names_eq_ok (eq_ok_of_toOption h)
  | resolve manifest source config preserve => cases h
  | secrets manifest scope config =>
    obtain ⟨d, -, h⟩ := Option.bind_eq_some_iff.mp h
    obtain ⟨s, -, h⟩ := Option.bind_eq_some_iff.mp h
    exact Settings.listed_of_names_eq_ok (eq_ok_of_toOption h)

/-- **A command in trouble has printed nothing, and a printed list can be read back.** Whatever the
files hold, and in whatever way documents and settings are read from them, a command that ends with
trouble has printed nothing. A command for a list is in trouble just if no list can be made; else
the lines of what it prints are the names on the list, each of which is spelled as names are, and no
two of which are the same. -/
theorem execute_prints (formats : Formats) (files : Files) (c : Command) :
    ((c.executeWith formats files).trouble ≠ none →
        (c.executeWith formats files).output.printed = "") ∧
      (c.isListing →
        ((c.executeWith formats files).trouble = none ↔
          ∃ names, c.names? formats files = some names) ∧
        ∀ names, c.names? formats files = some names →
          Text.lines (c.executeWith formats files).output.printed = names ∧
            (∀ n ∈ names, (Token.name n).Valid) ∧ names.Nodup) := by
  obtain ⟨htrouble, hprinted⟩ := executeWith_spec formats files c
  rw [Ne, htrouble, hprinted]
  refine ⟨fun hnone ↦ ?_, fun hlisting ↦ ⟨?_, fun names hnames ↦ ?_⟩⟩
  · rw [Option.not_isSome_iff_eq_none.mp hnone, Option.getD_none]
  · rw [answer?_of_isListing hlisting, Option.isSome_map, Option.isSome_iff_exists]
  · have hlisted := listed_of_names?_eq_some hnames
    rw [answer?_of_isListing hlisting, hnames]
    exact ⟨lines_unlines_of_listed hlisted, hlisted.valid, hlisted.nodup⟩

set_option maxRecDepth 4000 in
/-- No file can be read: a manifest is not resolved, and the names of a template are listed. -/
theorem execute_prints_vars :
    let files : Files := fun _ ↦ .error .missing
    let resolve := Command.resolve "m" none none true
    let vars := Command.vars "${{b-1 || (a.c)}}, ${{a}}" none
    (resolve.execute files).trouble ≠ none ∧ (resolve.execute files).output.printed = "" ∧
      vars.isListing ∧ vars.names? .default files = some ["b-1", "a"] ∧
      (vars.execute files).trouble = none ∧
      Text.lines (vars.execute files).output.printed = ["b-1", "a"] ∧
      (∀ n ∈ ["b-1", "a"], (Token.name n).Valid) ∧ ["b-1", "a"].Nodup := by
  intro files resolve vars
  obtain ⟨hquiet, -⟩ := execute_prints .default files resolve
  obtain ⟨-, hlist⟩ := execute_prints .default files vars
  have htrouble : (resolve.execute files).trouble ≠ none := by
    decide
  have hnames : vars.names? .default files = some ["b-1", "a"] := by
    cbv
  obtain ⟨hiff, hlines⟩ := hlist rfl
  exact ⟨htrouble, hquiet htrouble, rfl, hnames, hiff.mpr ⟨_, hnames⟩, hlines _ hnames⟩

end Command

end Interpolation
