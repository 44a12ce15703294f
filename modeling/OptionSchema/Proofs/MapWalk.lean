import OptionSchema.Log
import OptionSchema.Proofs.Extension
import OptionSchema.Proofs.OutputProper
/-!
# Walking a map as its entries

A map that reads as entries is validated like the keyword list of these. Only the keys differ: those
of the map come back as they were given, and what is added stands under strings. A map that does not
read as entries is refused at once.
-/
namespace OptionSchema

namespace Schema

variable {producers : Producers} {schema : Schema} {ctx : Context} {pairs : List (Value × Value)}
  {entries output : List (String × Value)}

theorem restored_of_given (reads : (Value.map pairs).entries? = some entries)
    {pair given : Value × Value} (written : pair ∈ restoreKeys pairs output)
    (hgiven : given ∈ pairs) (same : pair.1.identifier? = given.1.identifier?) :
    pair.1 = given.1 := by
  obtain ⟨name, -, hkey⟩ := mem_restoreKeys.mp written
  have hname : given.1.identifier? = some name := by
    rw [← same, ← hkey]
    exact identifier?_restoredKey pairs name
  rw [← hkey]
  exact restoredKey_of_mem reads hgiven hname

theorem restored_of_filled (once : schema.names.Nodup)
    (reads : (Value.map pairs).entries? = some entries)
    (returned : (schema.walkEntries (Nested.enterWithin producers ctx.remaining) entries
      ctx).outcome = .ok output) {pair : Value × Value} (written : pair ∈ restoreKeys pairs output)
    (absent : ∀ given ∈ pairs, pair.1.identifier? ≠ given.1.identifier?) :
    ∃ name default, pair.1 = .string name ∧ schema.Fills entries name default := by
  obtain ⟨name, hentry, hkey⟩ := mem_restoreKeys.mp written
  have hname : pair.1.identifier? = some name := hkey ▸ identifier?_restoredKey pairs name
  rw [hname] at absent
  have hstring : restoredKey pairs name = .string name :=
    restoredKey_of_absent fun given hgiven heq => absent given hgiven heq.symm
  have hnew : name ∉ Entries.names entries := by
    intro hmem
    obtain ⟨entry, hread, rfl⟩ := List.mem_map.mp hmem
    have items := (Value.namedEntries?_eq_some_iff.mp reads).1
    obtain ⟨given, hgiven, hsame, -⟩ := (Rearranged.of_forall₂ items).back hread
    exact absent given hgiven hsame.symm
  have result := outputEntries_of_walkEntries returned
  obtain ⟨spec, value, hmem, hcandidate, -⟩ := source_of_output once result hentry
  obtain ⟨named, hspec⟩ := (mem_expand_of_absent once hnew).mp hmem
  rcases KeySpec.candidate?_eq_some hcandidate with hgiven | ⟨-, hdefault⟩
  · exact absurd (Entries.mem_names hgiven) hnew
  · exact ⟨name, value, hkey.symm.trans hstring, named, hnew, spec, hspec, hdefault⟩

end Schema

/-- Validating a map that reads as entries agrees with validating the entries: the log is the same,
and so is the failure, or else the map that is returned reads as the entries that are returned, with
the keys as they were given and further ones under strings. A map that does not read as entries is
refused as a whole, whatever the schema, before anything is matched. -/
theorem map_walked_as_entries (producers : Producers) (schema : Schema)
    (pairs : List (Value × Value)) (ctx : Context) (once : schema.names.Nodup) :
    (∀ entries, (Value.map pairs).entries? = some entries →
      let onMap := schema.validate producers (.map pairs) ctx
      let onEntries := schema.validate producers (.keywords entries) ctx
      onMap.log = onEntries.log ∧
        ((∃ failure, onMap.outcome = .error failure ∧ onEntries.outcome = .error failure) ∨
          ∃ written output, onMap.outcome = .ok (.map written) ∧
            onEntries.outcome = .ok (.keywords output) ∧
            (Value.map written).entries? = some output ∧
            (∀ pair ∈ written, ∀ given ∈ pairs,
              pair.1.identifier? = given.1.identifier? → pair.1 = given.1) ∧
            ∀ pair ∈ written, (∀ given ∈ pairs, pair.1.identifier? ≠ given.1.identifier?) →
              ∃ name default, pair.1 = .string name ∧ schema.Fills entries name default)) ∧
    ((Value.map pairs).entries? = none →
      ∃ failure : Failure, failure.kind = .shape ∧ failure.place = .root ∧ failure.path = .root ∧
        ∀ (level : Schema) enter here, level.walk enter (.map pairs) here =
          ⟨.error failure, [.entered level (.map pairs) here]⟩) := by
  refine ⟨fun entries reads => ?_, Schema.walk_of_unread⟩
  intro onMap onEntries
  have hmap : onMap = _ := Schema.walk_map reads
  have hentries : onEntries = _ := Schema.walk_keywords _ _ _ _
  rw [hmap, hentries]
  refine ⟨rfl, ?_⟩
  cases returned : (schema.walkEntries (Nested.enterWithin producers ctx.remaining) entries
      ctx).outcome with
  | error failure => exact .inl ⟨failure, rfl, rfl⟩
  | ok output =>
    have named : (Entries.names output).Nodup :=
      Schema.nodup_names_output once (Schema.outputEntries_of_walkEntries returned)
    refine .inr ⟨_, output, rfl, rfl, Schema.namedEntries?_restoreKeys named, ?_, ?_⟩
    · exact fun pair written given hgiven => Schema.restored_of_given reads written hgiven
    · exact fun pair written => Schema.restored_of_filled once reads returned written

section Limits

def limitsSchema : Schema :=
  ⟨[("burst", { ty := .posInteger, default := some (.integer 10) }),
    ("rate", { ty := .posInteger }), ("*", { ty := .string })]⟩

def limits : List (Value × Value) :=
  [(.string "owner", .string "ops"), (.atom "rate", .integer 5), (.atom "team", .string "net")]

def walkedLimits : List (Value × Value) :=
  [(.string "burst", .integer 10), (.atom "rate", .integer 5), (.string "owner", .string "ops"),
    (.atom "team", .string "net")]

def ambiguousLimits : List (Value × Value) := (.string "team", .string "ops") :: limits

theorem limits_walked :
    (∃ output,
      (limitsSchema.validate (fun _ => .empty) (.map limits) .new).outcome =
        .ok (.map walkedLimits) ∧
      (Value.map walkedLimits).entries? = some output ∧
      ∃ default, limitsSchema.Fills
        [("owner", .string "ops"), ("rate", .integer 5), ("team", .string "net")] "burst" default) ∧
    ∃ failure, (limitsSchema.validate (fun _ => .empty) (.map ambiguousLimits) .new).outcome =
      .error failure ∧ failure.kind = .shape := by
  have once : limitsSchema.names.Nodup := by decide
  constructor
  · have expected : (limitsSchema.validate (fun _ => .empty) (.map limits) .new).outcome =
        .ok (.map walkedLimits) := rfl
    obtain ⟨-, ⟨failure, failed, -⟩ | ⟨written, output, returned, -, reads, -, added⟩⟩ :=
      (map_walked_as_entries (fun _ => .empty) limitsSchema limits .new once).1 _ rfl
    · cases expected.symm.trans failed
    · obtain rfl := Value.map.inj (Except.ok.inj (returned.symm.trans expected))
      refine ⟨output, expected, reads, ?_⟩
      obtain ⟨name, default, hname, filled⟩ :=
        added (.string "burst", .integer 10) List.mem_cons_self (by decide)
      obtain rfl := Value.string.inj hname
      exact ⟨default, filled⟩
  · obtain ⟨failure, kind, -, -, refused⟩ :=
      (map_walked_as_entries (fun _ => .empty) limitsSchema ambiguousLimits .new once).2 rfl
    refine ⟨failure, ?_, kind⟩
    rw [Schema.validate, refused]

end Limits

end OptionSchema
