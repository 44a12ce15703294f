import OptionSchema.Proofs.Entries
import OptionSchema.Proofs.Schema.Levels
import OptionSchema.Registry.Register
/-!
# Histories of a registry

All handles show one store, so a history is one sequence of registrations, whichever handles they
go through. What becomes of a registration depends only on what is bound to its own name: the first
one that would succeed on its own binds the name for good, and every later one fails without a
trace. So histories may be compared name by name.
-/
namespace OptionSchema

/-- What a registration is about. Schemas and validators do not share names. -/
inductive Subject where
  | schema (name : String)
  | validator (name : String)
deriving DecidableEq, Repr

variable {producers : Producers}

namespace Registration

def subject : Registration → Subject
  | .schema name _ => .schema name
  | .validator checker => .validator checker.name

def isSound (producers : Producers) : Registration → Bool
  | .schema _ definition => (definition.defects producers).isEmpty
  | .validator _ => true

def verdict (producers : Producers) : Registration → Except RegistryError Unit
  | .schema name definition =>
    ((definition.compile producers).outcome.mapError (.invalidSchema name)).map fun _ => ()
  | .validator _ => .ok ()

def duplicate : Registration → RegistryError
  | .schema name _ => .duplicateSchema name
  | .validator checker => .duplicateValidator checker.name

def answer (producers : Producers) (registration : Registration) :
    Option Registration → Except RegistryError Unit
  | some _ => .error registration.duplicate
  | none => registration.verdict producers

def rebind (producers : Producers) (registration : Registration) (about : Subject)
    (bound : Option Registration) : Option Registration :=
  bound.or
    (if registration.subject = about ∧ registration.isSound producers = true
      then some registration else none)

theorem isSound_schema {name : String} {definition : Schema} :
    (Registration.schema name definition).isSound producers = true ↔
      definition.Passes producers := by
  rw [isSound, List.isEmpty_iff, Schema.Passes, Schema.compile_outcome_eq_ok_iff]
  simp

theorem verdict_of_isSound {registration : Registration}
    (h : registration.isSound producers = true) : registration.verdict producers = .ok () := by
  cases registration with
  | validator checker => rfl
  | schema name definition =>
    have passes : (definition.compile producers).outcome = .ok definition := isSound_schema.mp h
    rw [verdict, passes]
    rfl

theorem verdict_of_not_isSound {registration : Registration}
    (h : registration.isSound producers = false) :
    ∃ name defects, registration.verdict producers = .error (.invalidSchema name defects) := by
  cases registration with
  | validator checker => cases h
  | schema name definition =>
    cases hcompile : (definition.compile producers).outcome with
    | ok compiled =>
      have free := ((Schema.compile_outcome_eq_ok_iff producers definition compiled).mp hcompile).1
      rw [isSound, free] at h
      cases h
    | error defects => exact ⟨name, defects, by rw [verdict, hcompile]; rfl⟩

end Registration

namespace Store

variable (store : Store) (registration : Registration) (about : Subject)

def binding? : Subject → Option Registration
  | .schema name => (store.schema? name).map (.schema name)
  | .validator name => (store.validator? name).map .validator

def bind : Registration → Store
  | .schema name definition => { store with schemas := store.schemas ++ [(name, definition)] }
  | .validator checker =>
    { store with validators := store.validators ++ [(checker.name, checker)] }

theorem lookup_append_single {β : Type} (entries : List (String × β)) (name other : String)
    (held : β) : (entries ++ [(other, held)]).lookup name =
      (entries.lookup name).or (if other = name then some held else none) := by
  rw [List.lookup_append, List.lookup_cons, List.lookup_nil]
  by_cases h : other = name
  · simp [h]
  · simp [h, beq_false_of_ne (Ne.symm h)]

theorem binding?_bind : (store.bind registration).binding? about =
    (store.binding? about).or
      (if registration.subject = about then some registration else none) := by
  cases registration with
  | schema other definition =>
    cases about with
    | validator name => simp [bind, binding?, validator?, Registration.subject]
    | schema name =>
      simp only [bind, binding?, schema?, Registration.subject, lookup_append_single]
      by_cases h : other = name
      · cases hbound : store.schemas.lookup name <;> simp [h]
      · cases hbound : store.schemas.lookup name <;> simp [h]
  | validator checker =>
    cases about with
    | schema name => simp [bind, binding?, schema?, Registration.subject]
    | validator name =>
      simp only [bind, binding?, validator?, Registration.subject, lookup_append_single]
      by_cases h : checker.name = name
      · cases hbound : store.validators.lookup name <;> simp [h]
      · cases hbound : store.validators.lookup name <;> simp [h]

/-- A registration fails because its name is bound, fails on its own account, or binds its name. -/
theorem register_outcome : (store.register producers registration).outcome =
    (registration.answer producers (store.binding? registration.subject)).map
      fun _ => store.bind registration := by
  cases registration with
  | validator checker =>
    simp only [register, registerValidator, Registration.subject, binding?, Run.ofExcept]
    cases store.validator? checker.name <;> rfl
  | schema name definition =>
    simp only [register, registerSchema, Registration.subject, binding?]
    cases store.schema? name with
    | some other => rfl
    | none =>
      cases hcompile : (definition.compile producers).outcome with
      | error defects =>
        simp [Registration.answer, Registration.verdict, Run.bind_eq, Run.bind, Run.mapError,
          hcompile, Except.map, Except.mapError]
      | ok compiled =>
        obtain ⟨-, rfl⟩ :=
          (Schema.compile_outcome_eq_ok_iff producers definition compiled).mp hcompile
        simp [Registration.answer, Registration.verdict, Run.bind_eq, Run.bind, Run.mapError,
          Run.note, Run.succeed, hcompile, Except.map, Except.mapError, bind]

end Store

structure Event where
  registration : Registration
  outcome : Except RegistryError Unit

def Event.registrations (events : List Event) : List Registration := events.map registration

namespace SharedRegistry

section Step

variable (shared : SharedRegistry) (registration : Registration)

theorem register_answer : (shared.register producers registration).2.outcome =
    registration.answer producers (shared.store.binding? registration.subject) := by
  rw [register, Store.register_outcome]
  cases registration.answer producers (shared.store.binding? registration.subject) <;> rfl

theorem limits_register :
    (shared.register producers registration).1.limits = shared.limits := by
  rw [register]
  cases (shared.store.register producers registration).outcome <;> rfl

theorem register_of_error {error : RegistryError}
    (h : (shared.register producers registration).2.outcome = .error error) :
    (shared.register producers registration).1 = shared := by
  rw [register_answer] at h
  rw [register, Store.register_outcome, h]
  rfl

/-- A registration changes the binding of its own name only, and that one only if it is free. -/
theorem binding?_register (about : Subject) :
    (shared.register producers registration).1.store.binding? about =
      registration.rebind producers about (shared.store.binding? about) := by
  rw [register, Store.register_outcome, Registration.rebind]
  by_cases hsubject : registration.subject = about
  · cases hsubject
    cases hbound : shared.store.binding? registration.subject with
    | some bound => simp [Registration.answer, Except.map, hbound]
    | none =>
      cases hsound : registration.isSound producers with
      | true =>
        simp [Registration.answer, Registration.verdict_of_isSound hsound, Except.map,
          Store.binding?_bind, hbound]
      | false =>
        obtain ⟨name, defects, hverdict⟩ := Registration.verdict_of_not_isSound hsound
        simp [Registration.answer, hverdict, Except.map, hbound]
  · cases registration.answer producers (shared.store.binding? registration.subject) with
    | error error => simp [Except.map, hsubject]
    | ok done => simp [Except.map, Store.binding?_bind, hsubject]

end Step

/-- What can be done with the handles, one operation at a time: handles are cloned, each clone with
a limit of its own, and registrations are made through them, with these events. -/
inductive Leads (producers : Producers) : SharedRegistry → List Event → SharedRegistry → Prop where
  | done (shared : SharedRegistry) : Leads producers shared [] shared
  | clone {shared last : SharedRegistry} {events : List Event} {handle : Nat} {registry : Registry}
      (through : shared.registry? handle = some registry) (maxDepth : Nat)
      (rest : Leads producers (shared.addHandle maxDepth) events last) :
      Leads producers shared events last
  | register {shared last : SharedRegistry} {events : List Event} {handle : Nat}
      {registry : Registry} (through : shared.registry? handle = some registry)
      (registration : Registration)
      (rest : Leads producers (shared.register producers registration).1 events last) :
      Leads producers shared
        (⟨registration, (shared.register producers registration).2.outcome⟩ :: events) last

def replay (producers : Producers) (about : Subject) :
    Option Registration → List Registration → List Event
  | _, [] => []
  | bound, registration :: registrations =>
    ⟨registration, registration.answer producers bound⟩ ::
      replay producers about (registration.rebind producers about bound) registrations

namespace Leads

variable {shared last : SharedRegistry} {events : List Event}

theorem binding? (h : shared.Leads producers events last) (about : Subject) :
    last.store.binding? about = (shared.store.binding? about).or
      ((Event.registrations events).find? fun registration =>
        registration.subject = about ∧ registration.isSound producers = true) := by
  induction h with
  | done shared => simp [Event.registrations]
  | clone through maxDepth rest ih => exact ih
  | register through registration rest ih =>
    rw [ih, binding?_register, Registration.rebind, Option.or_assoc]
    congr 1
    simp only [Event.registrations, List.map_cons, List.find?_cons]
    by_cases hbinds : registration.subject = about ∧ registration.isSound producers = true
    · simp [hbinds]
    · simp [hbinds]

theorem keeps_schema (h : shared.Leads producers events last) {name : String}
    {definition : Schema} (held : shared.store.schema? name = some definition) :
    last.store.schema? name = some definition := by
  have bound := h.binding? (.schema name)
  rw [Store.binding?, Store.binding?, held] at bound
  simpa using bound

theorem keeps_validator (h : shared.Leads producers events last) {name : String}
    {checker : Validator} (held : shared.store.validator? name = some checker) :
    last.store.validator? name = some checker := by
  have bound := h.binding? (.validator name)
  rw [Store.binding?, Store.binding?, held] at bound
  simpa using bound

/-- The events about one subject are what its own registrations alone lead to. -/
theorem events_about (h : shared.Leads producers events last) (about : Subject) :
    events.filter (fun event => event.registration.subject = about) =
      replay producers about (shared.store.binding? about)
        ((Event.registrations events).filter fun registration => registration.subject = about) := by
  induction h with
  | done shared => rfl
  | clone through maxDepth rest ih => exact ih
  | @register shared last events handle registry through registration rest ih =>
    rw [binding?_register] at ih
    by_cases hsubject : registration.subject = about
    · have here : (shared.register producers registration).2.outcome = _ :=
        register_answer shared registration
      rw [hsubject] at here
      simp only [Event.registrations, List.map_cons, List.filter_cons, hsubject, decide_true,
        if_true, replay, here, ih]
    · have kept : registration.rebind producers about (shared.store.binding? about) =
          shared.store.binding? about := by
        simp [Registration.rebind, hsubject]
      rw [kept] at ih
      simp only [Event.registrations, List.map_cons, List.filter_cons, hsubject, decide_false,
        Bool.false_eq_true, if_false] at ih ⊢
      exact ih

theorem preserves {P : Store → Prop} (h : shared.Leads producers events last)
    (step : ∀ store registration, P store → store.binding? registration.subject = none →
      registration.isSound producers = true → P (store.bind registration))
    (start : P shared.store) : P last.store := by
  induction h with
  | done shared => exact start
  | clone through maxDepth rest ih => exact ih start
  | @register shared last events handle registry through registration rest ih =>
    apply ih
    cases houtcome : (shared.register producers registration).2.outcome with
    | error error => rwa [register_of_error shared registration houtcome]
    | ok done =>
      rw [register_answer] at houtcome
      cases hbound : shared.store.binding? registration.subject with
      | some bound => rw [hbound] at houtcome; cases houtcome
      | none =>
        cases hsound : registration.isSound producers with
        | true =>
          rw [SharedRegistry.register, Store.register_outcome, houtcome]
          exact step shared.store registration start hbound hsound
        | false =>
          obtain ⟨name, defects, hverdict⟩ := Registration.verdict_of_not_isSound hsound
          rw [hbound, Registration.answer, hverdict] at houtcome
          cases houtcome

theorem limits (h : shared.Leads producers events last) {handle maxDepth : Nat}
    (hlimit : shared.limits[handle]? = some maxDepth) : last.limits[handle]? = some maxDepth := by
  induction h with
  | done shared => exact hlimit
  | @clone shared last events source of through other rest ih =>
    have held : handle < shared.limits.length := (List.getElem?_eq_some_iff.mp hlimit).1
    exact ih (by rwa [addHandle, List.getElem?_append_left held])
  | @register shared last events source of through registration rest ih =>
    exact ih (by rwa [limits_register])

theorem shows (h : shared.Leads producers events last) {handle : Nat} {registry : Registry}
    (through : shared.registry? handle = some registry) :
    last.registry? handle = some ⟨last.store, registry.maxDepth⟩ := by
  obtain ⟨maxDepth, hlimit, rfl⟩ := Option.map_eq_some_iff.mp through
  exact Option.map_eq_some_iff.mpr ⟨maxDepth, h.limits hlimit, rfl⟩

/-- Through a handle any registrations can be made, in any order. -/
theorem exists_history (producers : Producers) {handle : Nat} {registry : Registry}
    (through : shared.registry? handle = some registry) (registrations : List Registration) :
    ∃ events last, shared.Leads producers events last ∧
      Event.registrations events = registrations := by
  induction registrations generalizing shared registry with
  | nil => exact ⟨[], shared, .done shared, rfl⟩
  | cons registration registrations ih =>
    have kept := (Leads.register through registration (.done _) :
      shared.Leads producers _ _).shows through
    obtain ⟨events, last, rest, heq⟩ := ih kept
    exact ⟨_, last, .register through registration rest, by rw [Event.registrations, List.map_cons,
      ← heq, Event.registrations]⟩

end Leads

end SharedRegistry

/-- Every name is bound once, to a schema without defects. -/
structure Store.Sound (producers : Producers) (store : Store) : Prop where
  names : (Entries.names store.schemas).Nodup
  passes : ∀ entry ∈ store.schemas, entry.2.Passes producers

theorem Store.Sound.empty : Store.empty.Sound producers := ⟨List.nodup_nil, nofun⟩

theorem Store.Sound.bind {store : Store} {registration : Registration} (h : store.Sound producers)
    (free : store.binding? registration.subject = none)
    (sound : registration.isSound producers = true) :
    (store.bind registration).Sound producers := by
  cases registration with
  | validator checker => exact ⟨h.names, h.passes⟩
  | schema name definition =>
    have absent : name ∉ Entries.names store.schemas :=
      Entries.lookup_eq_none.mp (Option.map_eq_none_iff.mp free)
    constructor
    · rw [Store.bind, Entries.names, List.map_append]
      refine List.nodup_append.mpr ⟨h.names, List.nodup_cons.mpr ⟨List.not_mem_nil, .nil⟩, ?_⟩
      intro a ha b hb heq
      obtain rfl := List.mem_singleton.mp hb
      exact absent (heq ▸ ha)
    · intro entry hentry
      rcases List.mem_append.mp hentry with hentry | hentry
      · exact h.passes entry hentry
      · obtain rfl := List.mem_singleton.mp hentry
        exact Registration.isSound_schema.mp sound

theorem Store.Sound.schema?_iff {store : Store} (h : store.Sound producers) {name : String}
    {definition : Schema} :
    store.schema? name = some definition ↔ (name, definition) ∈ store.schemas :=
  Entries.lookup_eq_some h.names

theorem SharedRegistry.Leads.sound {shared last : SharedRegistry} {events : List Event}
    (h : shared.Leads producers events last) (start : shared.store.Sound producers) :
    last.store.Sound producers :=
  h.preserves (fun _ _ sound free passes => sound.bind free passes) start

namespace SharedRegistry

variable {maxDepth : Nat} {events : List Event} {shared : SharedRegistry}

theorem Leads.binding?_of_new (h : (new maxDepth).Leads producers events shared)
    (about : Subject) : shared.store.binding? about =
      (Event.registrations events).find? fun registration =>
        registration.subject = about ∧ registration.isSound producers = true := by
  rw [h.binding? about]
  cases about <;> exact Option.none_or

theorem Leads.schema?_iff (h : (new maxDepth).Leads producers events shared) (name : String)
    (definition : Schema) : shared.store.schema? name = some definition ↔
      ∃ before after, Event.registrations events = before ++ .schema name definition :: after ∧
        definition.Passes producers ∧
        ∀ earlier, .schema name earlier ∈ before → ¬ earlier.Passes producers := by
  have bound : shared.store.schema? name = some definition ↔
      shared.store.binding? (.schema name) = some (.schema name definition) := by
    simp [Store.binding?]
  rw [bound, h.binding?_of_new, List.find?_eq_some_iff_append]
  simp only [decide_eq_true_eq, Bool.not_eq_eq_eq_not, Bool.not_true, decide_eq_false_iff_not]
  constructor
  · rintro ⟨⟨-, sound⟩, before, after, hsplit, first⟩
    refine ⟨before, after, hsplit, Registration.isSound_schema.mp sound, ?_⟩
    exact fun earlier hmem passes => first _ hmem ⟨rfl, Registration.isSound_schema.mpr passes⟩
  · rintro ⟨before, after, hsplit, passes, first⟩
    refine ⟨⟨rfl, Registration.isSound_schema.mpr passes⟩, before, after, hsplit, ?_⟩
    rintro (⟨other, earlier⟩ | checker) hmem ⟨hsubject, sound⟩
    · cases hsubject
      exact first earlier hmem (Registration.isSound_schema.mp sound)
    · cases hsubject

theorem Leads.validator?_iff (h : (new maxDepth).Leads producers events shared) (name : String)
    (checker : Validator) : shared.store.validator? name = some checker ↔
      checker.name = name ∧
      ∃ before after, Event.registrations events = before ++ .validator checker :: after ∧
        ∀ earlier, .validator earlier ∈ before → earlier.name ≠ name := by
  have bound : shared.store.validator? name = some checker ↔
      shared.store.binding? (.validator name) = some (.validator checker) := by
    simp [Store.binding?]
  rw [bound, h.binding?_of_new, List.find?_eq_some_iff_append]
  simp only [decide_eq_true_eq, Bool.not_eq_eq_eq_not, Bool.not_true, decide_eq_false_iff_not]
  constructor
  · rintro ⟨⟨hsubject, -⟩, before, after, hsplit, first⟩
    refine ⟨Subject.validator.inj hsubject, before, after, hsplit, fun earlier hmem heq => ?_⟩
    exact first _ hmem ⟨congrArg Subject.validator heq, rfl⟩
  · rintro ⟨rfl, before, after, hsplit, first⟩
    refine ⟨⟨rfl, rfl⟩, before, after, hsplit, ?_⟩
    rintro (⟨other, earlier⟩ | earlier) hmem ⟨hsubject, -⟩
    · cases hsubject
    · exact first earlier hmem (Subject.validator.inj hsubject)

/-- Two histories with the same registrations of each subject have the same events about each. -/
theorem Leads.events_eq (h : (new maxDepth).Leads producers events shared) {otherDepth : Nat}
    {others : List Event} {last : SharedRegistry}
    (other : (new otherDepth).Leads producers others last) {about : Subject}
    (same : (Event.registrations others).filter (·.subject = about) =
      (Event.registrations events).filter (·.subject = about)) :
    others.filter (·.registration.subject = about) =
      events.filter (·.registration.subject = about) := by
  rw [h.events_about, other.events_about, same]
  rfl

theorem Leads.binding?_eq (h : (new maxDepth).Leads producers events shared) {otherDepth : Nat}
    {others : List Event} {last : SharedRegistry}
    (other : (new otherDepth).Leads producers others last) {about : Subject}
    (same : (Event.registrations others).filter (·.subject = about) =
      (Event.registrations events).filter (·.subject = about)) :
    last.store.binding? about = shared.store.binding? about := by
  have within : ∀ registrations : List Registration,
      (registrations.find? fun registration =>
        registration.subject = about ∧ registration.isSound producers = true) =
      (registrations.filter (·.subject = about)).find? (·.isSound producers) := by
    intro registrations
    rw [List.find?_filter]
    congr 1
    funext registration
    simp
  rw [h.binding?_of_new, other.binding?_of_new, within, within, same]

/-- After any history: each name is bound, through every handle, by its first registration that
would succeed on its own, and stays so; what fails leaves no trace; and only the order of the
registrations of one subject matters. -/
theorem first_registration_wins (history : (new maxDepth).Leads producers events shared) :
    (∀ handle registry, shared.registry? handle = some registry →
      (∀ name definition, registry.schema? name = some definition ↔
        ∃ before after, Event.registrations events = before ++ .schema name definition :: after ∧
          definition.Passes producers ∧
          ∀ earlier, .schema name earlier ∈ before → ¬ earlier.Passes producers) ∧
      ∀ name checker, registry.validator? name = some checker ↔
        checker.name = name ∧
        ∃ before after, Event.registrations events = before ++ .validator checker :: after ∧
          ∀ earlier, .validator earlier ∈ before → earlier.name ≠ name) ∧
    (∀ later last, shared.Leads producers later last →
      ∀ handle registry, shared.registry? handle = some registry →
        ∃ grown, last.registry? handle = some grown ∧ grown.maxDepth = registry.maxDepth ∧
          (∀ name definition, registry.schema? name = some definition →
            grown.schema? name = some definition) ∧
          ∀ name checker, registry.validator? name = some checker →
            grown.validator? name = some checker) ∧
    (∀ registration error, (shared.register producers registration).2.outcome = .error error →
      (shared.register producers registration).1 = shared ∧
        (error = registration.duplicate ∨ ∃ name defects, error = .invalidSchema name defects)) ∧
    (∀ entry ∈ shared.store.schemas, entry.2.Passes producers) ∧
    ∀ reordered : List Registration,
      (∀ about, reordered.filter (·.subject = about) =
        (Event.registrations events).filter (·.subject = about)) →
      ∀ otherDepth, (∃ others last, (new otherDepth).Leads producers others last ∧
          Event.registrations others = reordered) ∧
        ∀ others last, (new otherDepth).Leads producers others last →
          Event.registrations others = reordered →
          (∀ about, others.filter (·.registration.subject = about) =
            events.filter (·.registration.subject = about)) ∧
          (∀ name, last.store.schema? name = shared.store.schema? name) ∧
          ∀ name, last.store.validator? name = shared.store.validator? name := by
  refine ⟨?bindings, ?lasting, ?failing, (history.sound .empty).passes, ?reordering⟩
  case bindings =>
    intro handle registry through
    obtain ⟨limit, -, rfl⟩ := Option.map_eq_some_iff.mp through
    exact ⟨history.schema?_iff, history.validator?_iff⟩
  case lasting =>
    intro later last more handle registry through
    obtain ⟨limit, -, rfl⟩ := Option.map_eq_some_iff.mp through
    exact ⟨_, more.shows through, rfl, fun name definition => more.keeps_schema,
      fun name checker => more.keeps_validator⟩
  case failing =>
    intro registration error failed
    refine ⟨register_of_error shared registration failed, ?_⟩
    rw [register_answer] at failed
    cases hbound : shared.store.binding? registration.subject with
    | some bound =>
      rw [hbound] at failed
      exact .inl (Except.error.inj failed).symm
    | none =>
      rw [hbound, Registration.answer] at failed
      cases hsound : registration.isSound producers with
      | true => rw [Registration.verdict_of_isSound hsound] at failed; cases failed
      | false =>
        obtain ⟨name, defects, hverdict⟩ := Registration.verdict_of_not_isSound hsound
        exact .inr ⟨name, defects, Except.error.inj (failed.symm.trans hverdict)⟩
  case reordering =>
    intro reordered same otherDepth
    have through : registry? (new otherDepth) 0 = some _ := rfl
    refine ⟨Leads.exists_history producers through reordered, ?_⟩
    rintro others last other rfl
    refine ⟨fun about => history.events_eq other (same about), fun name => ?_, fun name => ?_⟩
    · have bindings := history.binding?_eq other (same (.schema name))
      exact Option.map_injective (fun _ _ h => (Registration.schema.inj h).2) bindings
    · have bindings := history.binding?_eq other (same (.validator name))
      exact Option.map_injective (fun _ _ h => Registration.validator.inj h) bindings

section Library

def authorSchema : Schema :=
  ⟨[("name", { ty := .string, required := true }),
    ("books", { ty := .listOf .map, nested := some (.ref "Book") })]⟩

def bookSchema : Schema := ⟨[("author", { ty := .map, nested := some (.ref "Author") })]⟩

def brokenSchema : Schema := ⟨[("shelf", { ty := .union [], required := true })]⟩

def libraryRequests : List Registration :=
  [.schema "Author" authorSchema, .schema "Book" brokenSchema, .schema "Book" bookSchema,
    .schema "Author" .empty]

def booksFirst : List Registration :=
  [.schema "Book" brokenSchema, .schema "Book" bookSchema, .schema "Author" authorSchema,
    .schema "Author" .empty]

theorem booksFirst_about (about : Subject) : booksFirst.filter (·.subject = about) =
    libraryRequests.filter (·.subject = about) := by
  by_cases author : Subject.schema "Author" = about
  · subst author; rfl
  · simp [booksFirst, libraryRequests, List.filter_cons, Registration.subject, author]

/-- The requests can come in either order, and through a clone of the handle. -/
theorem books_and_authors : let producers : Producers := fun _ => .empty
    ∃ events shared, (new 100).Leads producers events shared ∧
      Event.registrations events = libraryRequests ∧
      events.map (·.outcome.toBool) = [true, false, true, false] ∧
      (∃ registry, shared.registry? 1 = some registry ∧
        registry.schema? "Author" = some authorSchema ∧ registry.schema? "Book" = some bookSchema) ∧
      ∃ others last, (new 50).Leads producers others last ∧
        Event.registrations others = booksFirst ∧
        last.store.schema? "Author" = some authorSchema ∧
        last.store.schema? "Book" = some bookSchema := by
  intro producers
  obtain ⟨events, shared, history, requests, outcomes, registry, through⟩ :
      ∃ events shared, (new 100).Leads producers events shared ∧
        Event.registrations events = libraryRequests ∧
        events.map (·.outcome.toBool) = [true, false, true, false] ∧
        ∃ registry, shared.registry? 1 = some registry :=
    ⟨_, _, @Leads.register _ _ _ _ 0 _ rfl (.schema "Author" authorSchema)
      (@Leads.clone _ _ _ _ 0 _ rfl 5
        (@Leads.register _ _ _ _ 1 _ rfl (.schema "Book" brokenSchema)
          (@Leads.register _ _ _ _ 1 _ rfl (.schema "Book" bookSchema)
            (@Leads.register _ _ _ _ 0 _ rfl (.schema "Author" .empty) (.done _))))),
      rfl, by decide +kernel, _, rfl⟩
  obtain ⟨bindings, -, -, -, reordering⟩ := first_registration_wins history
  rw [requests] at bindings reordering
  obtain ⟨⟨others, last, other, hothers⟩, alike⟩ := reordering booksFirst booksFirst_about 50
  obtain ⟨-, schemas, -⟩ := alike others last other hothers
  have bound := (bindings 1 registry through).1
  have author := (bound "Author" authorSchema).mpr ⟨[], _, rfl, rfl, nofun⟩
  have book := (bound "Book" bookSchema).mpr
    ⟨[.schema "Author" authorSchema, .schema "Book" brokenSchema], _, rfl, rfl, by
      intro earlier hmem passes
      simp only [List.mem_cons, Registration.schema.injEq, String.reduceEq, false_and, true_and,
        List.not_mem_nil, or_false, false_or] at hmem
      subst hmem
      cases passes⟩
  obtain ⟨limit, -, rfl⟩ := Option.map_eq_some_iff.mp through
  exact ⟨events, shared, history, requests, outcomes, ⟨_, through, author, book⟩, others, last,
    other, hothers, (schemas "Author").trans author, (schemas "Book").trans book⟩

end Library

end SharedRegistry

end OptionSchema
