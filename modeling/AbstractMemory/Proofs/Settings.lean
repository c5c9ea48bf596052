import AbstractMemory.Config.Text
import AbstractMemory.Proofs.Yaml.Inversion

/-! Settings survive being written and read, in any format that reads what it
writes. What is read is what was written, so that only the version and the checks
decide about the answer. -/

namespace AbstractMemory

open TextFormat

namespace Config

/-- Whether the numbers are ones of 32 bits. -/
structure InRange (c : Config) : Prop where
  version : c.version < 0x100000000
  sizes : ∀ a ∈ c.allocators, ∀ n ∈ a.sizeArg, n < 0x100000000
  flags : ∀ a ∈ c.allocators, ∀ n ∈ a.flagsArg, n < 0x100000000

/-- The names of all settings. -/
def keys : List String :=
  ["version", "allocators", "union_name_prefix", "model_function_objects", "name", "size_arg",
    "flags_arg"]

theorem writable_optionTree {o : Option Nat} (h : ∀ n ∈ o, n < 0x100000000) :
    Writable (· ∈ keys) (optionTree o) := by
  cases o with
  | none => trivial
  | some n => exact h n rfl

theorem writable_allocators {as : List Allocator}
    (hsizes : ∀ a ∈ as, ∀ n ∈ a.sizeArg, n < 0x100000000)
    (hflags : ∀ a ∈ as, ∀ n ∈ a.flagsArg, n < 0x100000000) :
    WritableItems (· ∈ keys) (as.map allocatorTree) := by
  induction as with
  | nil => trivial
  | cons a rest ih =>
    rw [List.forall_mem_cons] at hsizes hflags
    exact ⟨⟨by simp [keys], trivial, by simp [keys], writable_optionTree hsizes.1, by simp [keys],
      writable_optionTree hflags.1, trivial⟩, ih hsizes.2 hflags.2⟩

theorem writable_entries {c : Config} (h : c.InRange) :
    WritableEntries (· ∈ keys) c.entries :=
  ⟨by simp [keys], h.version, by simp [keys], writable_allocators h.sizes h.flags,
    by simp [keys], trivial, by simp [keys], trivial, trivial⟩

section Reading

variable {F : TextFormat} {n : F.Node}

theorem asOptionalNumber_of_reads {o : Option Nat} (h : F.Reads n (optionTree o)) :
    F.asOptionalNumber n = pure o := by
  cases o with
  | none => cases h with | null h => exact h
  | some v => cases h with | number h => exact h

theorem asText_of_reads {s : String} (h : F.Reads n (.text s)) : F.asText n = pure s := by
  cases h with | text h => exact h

theorem asBool_of_reads {b : Bool} (h : F.Reads n (.bool b)) : F.asBool n = pure b := by
  cases h with | bool h => exact h

theorem asEntries_of_reads {entries : List (String × Yaml.Tree)} (h : F.Reads n (.map entries)) :
    ∃ nodes, F.asEntries n = pure nodes ∧
      List.Forall₂ (fun node entry => F.asText node.1 = pure entry.1 ∧ F.Reads node.2 entry.2)
        nodes entries := by
  cases h with
  | map h hkeys hvalues =>
    refine ⟨_, h, ?_⟩
    clear h
    induction hkeys with
    | nil => exact .nil
    | cons hkey _ ih =>
      cases hvalues with
      | cons hvalue hrest => exact .cons ⟨hkey, hvalue⟩ (ih hrest)

theorem readAllocator_of_reads {a : Allocator} (h : F.Reads n (allocatorTree a)) :
    readAllocator F n = pure a := by
  obtain ⟨nodes, hnodes, hall⟩ := asEntries_of_reads h
  simp only [List.forall₂_cons_right_iff, List.forall₂_nil_right_iff] at hall
  obtain ⟨_, _, ⟨hname, hname'⟩, ⟨_, _, ⟨hsize, hsize'⟩, ⟨_, _, ⟨hflags, hflags'⟩, rfl, rfl⟩, rfl⟩,
    rfl⟩ := hall
  rw [readAllocator, hnodes]
  simp only [List.foldlM_cons, List.foldlM_nil, pure_bind, readAllocatorEntry, hname, hsize, hflags,
    asText_of_reads hname', asOptionalNumber_of_reads hsize', asOptionalNumber_of_reads hflags',
    fill, map_pure]
  rfl

theorem mapM_readAllocator {nodes : List F.Node} {as : List Allocator}
    (h : List.Forall₂ F.Reads nodes (as.map allocatorTree)) :
    nodes.mapM (readAllocator F) = pure as := by
  induction as generalizing nodes with
  | nil =>
    cases h
    rfl
  | cons a rest ih =>
    cases h with
    | cons ha hrest =>
      simp only [List.mapM_cons, readAllocator_of_reads ha, ih hrest, pure_bind]

/-- The draft of settings that are all there. -/
def draft (c : Config) : ConfigDraft where
  version := some (some c.version)
  allocators := some c.allocators
  unionName := some c.unionName
  functionObjects := some c.functionObjects

theorem readDraft_of_reads {c : Config} {state : F.State} (h : F.Reads n (.map c.entries)) :
    readDraft F (some n, state) = some c.draft := by
  obtain ⟨nodes, hnodes, hall⟩ := asEntries_of_reads h
  simp only [entries, List.forall₂_cons_right_iff, List.forall₂_nil_right_iff] at hall
  obtain ⟨_, _, ⟨hversion, hversion'⟩, ⟨_, _, ⟨hitems, hitems'⟩, ⟨_, _, ⟨hname, hname'⟩,
    ⟨_, _, ⟨hobjects, hobjects'⟩, rfl, rfl⟩, rfl⟩, rfl⟩, rfl⟩ := hall
  have hversion'' := asOptionalNumber_of_reads (o := some c.version) hversion'
  cases hitems' with
  | list hlist hallocators =>
    simp only [readDraft, hnodes, List.foldlM_cons, List.foldlM_nil, pure_bind, readEntry, hversion,
      hitems, hname, hobjects, hversion'', hlist, mapM_readAllocator hallocators,
      asText_of_reads hname', asBool_of_reads hobjects', fill, map_pure]
    rfl

end Reading

theorem ofDraft_draft (c : Config) : ofDraft c.draft =
    if c.version = 1 then (fun _ => c) <$> c.validate
    else .error (.unsupportedVersion c.version) := by
  have hstep : ofDraft c.draft =
      if ¬c.version = 1 then .error (.unsupportedVersion c.version)
      else (fun _ => c) <$> c.validate := rfl
  rw [hstep, ite_not]

/-- In a format that reads what it writes, settings are read as they were written, if
their version is known and they pass the checks. If not, the version is refused first,
and then they are refused for what the checks found. -/
theorem ofText_toText (F : TextFormat) (hF : F.Inverts (· ∈ keys)) (c : Config) (h : c.InRange) :
    (c.version = 1 → c.validate = .ok () → ofText F (c.toText F) = .ok c) ∧
      (c.version ≠ 1 → ofText F (c.toText F) = .error (.unsupportedVersion c.version)) ∧
      (∀ e, c.version = 1 → c.validate = .error e → ofText F (c.toText F) = .error e) := by
  have hread : ofText F (c.toText F) = ofDraft c.draft := by
    obtain ⟨n, state, hparse, hreads⟩ := hF c.entries (by simp [entries]) (writable_entries h)
    rw [ofText, toText, hparse, Option.bind_some, readDraft_of_reads hreads]
  rw [hread, ofDraft_draft]
  refine ⟨fun hversion hvalid => ?_, fun hversion => if_neg hversion, fun e hversion hfault => ?_⟩
  · rw [if_pos hversion, hvalid]
    rfl
  · rw [if_pos hversion, hfault]
    rfl

theorem isSimpleKey_of_mem {key : String} (hkey : key ∈ keys) : Yaml.IsSimpleKey key := by
  have h : ∀ key ∈ keys, Yaml.styleOf key = .plain ∧
      (key.toList.map Char.utf8Size).sum ≤ Yaml.maxKeyLength := by
    decide +kernel
  exact ⟨(h key hkey).1, (h key hkey).2⟩

theorem format_inverts_keys : Yaml.format.Inverts (· ∈ keys) :=
  Yaml.format_inverts.mono fun _ => isSimpleKey_of_mem

theorem ofText_toText_quoted :
    let c : Config := {
      allocators := [⟨"null", none, some 3⟩, ⟨"it's: #1", some 0, none⟩, ⟨"two\nlines\n", none, none⟩]
      unionName := "\t\x07- 1" }
    ofText Yaml.format (c.toText Yaml.format) = .ok c ∧
      ofText Yaml.format ({ c with version := 2 }.toText Yaml.format) =
        .error (.unsupportedVersion 2) ∧
      ofText Yaml.format ({ c with unionName := "" }.toText Yaml.format) =
        .error (.invalid .emptyUnionName) :=
  ⟨(ofText_toText _ format_inverts_keys _ ⟨by decide, by decide, by decide⟩).1 rfl rfl,
    (ofText_toText _ format_inverts_keys _ ⟨by decide, by decide, by decide⟩).2.1 (by decide),
    (ofText_toText _ format_inverts_keys _ ⟨by decide, by decide, by decide⟩).2.2 _ rfl rfl⟩

end Config

end AbstractMemory
