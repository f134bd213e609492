import Vertz.Native.Ci.Cache

/-!
# `Vertz.Proofs.CacheKeys`: which tasks hash to one stream

The streams of `compute_cache_key` and `hash_input_files` join fields of
any length, most of them without a separator. So two tasks with the same
streams have the same inputs just when their fields are as long
(`sameInputs_iff`). The scheduler passes the values of the secrets where
their names belong, and the stream leaves the value of a secret variable
out just when its name is one of these values (`secret_left_out_iff`).
-/

namespace Vertz.Proofs

open Vertz.Lib
open Vertz.Native.Ci List

/-- A variable without the value of a secret. -/
def publicEntry (secretNames : List String) (e : String × String) : String × Option String :=
  (e.1, if e.1 ∈ secretNames then none else some e.2)

section

variable (names names' : List String) (r r' : KeyInputs)

structure SameStreams (digest : List UInt8 → List UInt8) : Prop where
  key : keyStream digest names r = keyStream digest names' r'
  files : fileStream r.files = fileStream r'.files

/-- Two tasks with the same inputs, up to the values of secrets. -/
structure SameInputs : Prop where
  command : r.command = r'.command
  env : r.env.entries.map (publicEntry names) = r'.env.entries.map (publicEntry names')
  files : r.files = r'.files
  version : r.version = r'.version
  platform : r.platform = r'.platform
  lockfileHash : r.lockfileHash = r'.lockfileHash

end

def TaskCommand.lengths : TaskCommand → ℕ ⊕ List ℕ
  | .command cmd => .inl (utf8 cmd).length
  | .steps lines => .inr (lines.map fun step => (utf8 step).length)

def entryLengths (e : String × Option String) : ℕ × Option ℕ :=
  ((utf8 e.1).length, e.2.map fun v => (utf8 v).length)

def fileLengths (f : Option String × List UInt8) : Option ℕ × ℕ :=
  (f.1.map fun path => (utf8 path).length, f.2.length)

/-- Two tasks of one kind with as many fields, each as long. -/
structure SameLengths (names names' : List String) (r r' : KeyInputs) : Prop where
  command : TaskCommand.lengths r.command = TaskCommand.lengths r'.command
  env : (r.env.entries.map (publicEntry names)).map entryLengths =
    (r'.env.entries.map (publicEntry names')).map entryLengths
  files : r.files.map fileLengths = r'.files.map fileLengths
  version : (utf8 r.version).length = (utf8 r'.version).length
  platform : (utf8 r.platform).length = (utf8 r'.platform).length

/-! ### Splitting a stream -/

variable {s t : List UInt8}

theorem utf8_injective : Function.Injective utf8 := by
  intro a b h
  refine String.toByteArray_inj.mp (ByteArray.ext ?_)
  exact Array.toList_inj.mp h

theorem utf8_append_inj {a b : String} (hlen : (utf8 a).length = (utf8 b).length)
    (h : utf8 a ++ s = utf8 b ++ t) : a = b ∧ s = t := by
  obtain ⟨hab, hst⟩ := append_inj h hlen
  exact ⟨utf8_injective hab, hst⟩

theorem flatMap_append_inj {α β : Type} {enc : α → List UInt8} {size : α → β}
    (hone : ∀ a b s t, size a = size b → enc a ++ s = enc b ++ t → a = b ∧ s = t)
    {xs ys : List α} (hsize : xs.map size = ys.map size)
    (h : xs.flatMap enc ++ s = ys.flatMap enc ++ t) : xs = ys ∧ s = t := by
  induction xs generalizing ys with
  | nil =>
    cases ys with
    | nil => exact ⟨rfl, h⟩
    | cons => cases hsize
  | cons x xs ih =>
    cases ys with
    | nil => cases hsize
    | cons y ys =>
      rw [map_cons, map_cons] at hsize
      obtain ⟨hhead, htail⟩ := List.cons.inj hsize
      rw [flatMap_cons, flatMap_cons, append_assoc, append_assoc] at h
      obtain ⟨rfl, hrest⟩ := hone x y _ _ hhead h
      obtain ⟨rfl, hst⟩ := ih htail hrest
      exact ⟨rfl, hst⟩

/-- The line of a variable, from what is public of it. -/
def publicLine (e : String × Option String) : List UInt8 :=
  utf8 e.1 ++ utf8 "=" ++ utf8 (e.2.getD ("__secret:" ++ e.1)) ++ utf8 "\n"

theorem envLines_eq (names : List String) (entries : List (String × String)) :
    entries.flatMap (envLine names) = (entries.map (publicEntry names)).flatMap publicLine := by
  rw [flatMap_map]
  refine congrArg₂ _ (funext fun e => ?_) rfl
  rw [envLine, publicLine, publicEntry]
  split_ifs with hsecret
  · rfl
  · rfl

theorem publicLine_append_inj (e e' : String × Option String) (s t : List UInt8)
    (hlen : entryLengths e = entryLengths e') (h : publicLine e ++ s = publicLine e' ++ t) :
    e = e' ∧ s = t := by
  obtain ⟨k, v⟩ := e
  obtain ⟨k', v'⟩ := e'
  obtain ⟨hk, hv⟩ := Prod.mk.inj hlen
  simp only [publicLine, append_assoc] at h
  obtain ⟨rfl, hrest⟩ := utf8_append_inj hk h
  have hvalue := append_cancel_left hrest
  cases v with
  | none =>
    cases v' with
    | none => exact ⟨rfl, append_cancel_left (append_cancel_left hvalue)⟩
    | some => cases hv
  | some v =>
    cases v' with
    | none => cases hv
    | some v' =>
      obtain ⟨rfl, hend⟩ := utf8_append_inj (Option.some.inj hv) hvalue
      exact ⟨rfl, append_cancel_left hend⟩

theorem file_append_inj (f f' : Option String × List UInt8) (s t : List UInt8)
    (hlen : fileLengths f = fileLengths f')
    (h : (f.1.map utf8).getD [] ++ f.2 ++ s = (f'.1.map utf8).getD [] ++ f'.2 ++ t) :
    f = f' ∧ s = t := by
  obtain ⟨path, content⟩ := f
  obtain ⟨path', content'⟩ := f'
  obtain ⟨hpath, hcontent⟩ := Prod.mk.inj hlen
  simp only [append_assoc] at h
  have hsplit : path = path' ∧ content ++ s = content' ++ t := by
    cases path with
    | none =>
      cases path' with
      | none => exact ⟨rfl, h⟩
      | some => cases hpath
    | some path =>
      cases path' with
      | none => cases hpath
      | some path' =>
        obtain ⟨rfl, hrest⟩ := utf8_append_inj (Option.some.inj hpath) h
        exact ⟨rfl, hrest⟩
  obtain ⟨rfl, hrest⟩ := hsplit
  obtain ⟨rfl, hst⟩ := append_inj hrest hcontent
  exact ⟨rfl, hst⟩

theorem joinLines_append_inj {xs ys : List String}
    (hlen : (xs.map fun x => (utf8 x).length) = ys.map fun y => (utf8 y).length)
    (h : joinLines (xs.map utf8) ++ s = joinLines (ys.map utf8) ++ t) : xs = ys ∧ s = t := by
  induction xs generalizing ys with
  | nil =>
    cases ys with
    | nil => exact ⟨rfl, h⟩
    | cons => cases hlen
  | cons x xs ih =>
    cases ys with
    | nil => cases hlen
    | cons y ys =>
      obtain ⟨hhead, htail⟩ := List.cons.inj hlen
      match xs, ys with
      | [], [] =>
        obtain ⟨rfl, hst⟩ := utf8_append_inj hhead h
        exact ⟨rfl, hst⟩
      | x' :: xs, y' :: ys =>
        simp only [map_cons, joinLines, append_assoc] at h
        obtain ⟨rfl, hrest⟩ := utf8_append_inj hhead h
        obtain ⟨heq, hst⟩ := ih htail (append_cancel_left hrest)
        exact ⟨congrArg _ heq, hst⟩

theorem command_append_inj {c c' : TaskCommand}
    (hlen : TaskCommand.lengths c = TaskCommand.lengths c') (h : c.text ++ s = c'.text ++ t) :
    c = c' ∧ s = t := by
  cases c with
  | command text =>
    cases c' with
    | command text' =>
      obtain ⟨rfl, hst⟩ := utf8_append_inj (Sum.inl.inj hlen) h
      exact ⟨rfl, hst⟩
    | steps => cases hlen
  | steps steps =>
    cases c' with
    | command => cases hlen
    | steps steps' =>
      obtain ⟨rfl, hst⟩ := joinLines_append_inj (Sum.inr.inj hlen) h
      exact ⟨rfl, hst⟩

/-! ### Two tasks -/

theorem sameInputs_iff {digest : List UInt8 → List UInt8} {names names' : List String}
    {r r' : KeyInputs} (h : SameStreams names names' r r' digest) :
    SameInputs names names' r r' ↔ SameLengths names names' r r' := by
  constructor
  · intro hsame
    exact ⟨congrArg _ hsame.command, congrArg _ hsame.env, congrArg _ hsame.files,
      congrArg (fun v => (utf8 v).length) hsame.version,
      congrArg (fun v => (utf8 v).length) hsame.platform⟩
  · intro hlen
    have hfiles : r.files = r'.files := by
      have hstreams := h.files
      rw [← append_nil (fileStream r.files), ← append_nil (fileStream r'.files)]
        at hstreams
      exact (flatMap_append_inj file_append_inj hlen.files hstreams).1
    have hkey := h.key
    simp only [keyStream, envLines_eq, hfiles, append_assoc] at hkey
    obtain ⟨hcommand, hkey⟩ := command_append_inj hlen.command hkey
    obtain ⟨henv, hkey⟩ := flatMap_append_inj publicLine_append_inj hlen.env hkey
    obtain ⟨hversion, hkey⟩ := utf8_append_inj hlen.version (append_cancel_left hkey)
    obtain ⟨hplatform, hkey⟩ := utf8_append_inj hlen.platform hkey
    exact ⟨hcommand, henv, hfiles, hversion, hplatform, utf8_injective hkey⟩

/-! ### One secret -/

theorem entries_setEnv {env : SortedMap String String} {k v₀ : String}
    (hget : env.get? k = some v₀) : ∃ pre post, ∀ v,
    (env.insert k v).entries = pre ++ (k, v) :: post ∧ env.entries = pre ++ (k, v₀) :: post := by
  obtain ⟨pre, post, hsplit, -⟩ := SortedMap.lookup_eq_some_iff.mp hget
  refine ⟨pre, post, fun v => ⟨?_, hsplit⟩⟩
  have hsorted := env.sorted
  rw [hsplit] at hsorted
  show SortedMap.put k v env.entries = _
  rw [hsplit]
  exact SortedMap.put_present fun e he =>
    (pairwise_append.mp hsorted).2.2 e he (k, v₀) mem_cons_self

theorem secret_left_out_iff (digest : List UInt8 → List UInt8) (getEnv : String → Option String)
    (secrets : List String) (run : KeyInputs) {k v₀ : String} (hget : run.env.get? k = some v₀) :
    (∀ v, executeStream digest getEnv secrets { run with env := run.env.insert k v } =
        executeStream digest getEnv secrets run) ↔ k ∈ collectSecretValues getEnv secrets := by
  obtain ⟨pre, post, hentries⟩ := entries_setEnv hget
  have hline : ∀ v, executeStream digest getEnv secrets { run with env := run.env.insert k v } =
      executeStream digest getEnv secrets run ↔
        envLine (collectSecretValues getEnv secrets) (k, v) =
          envLine (collectSecretValues getEnv secrets) (k, v₀) := by
    intro v
    rw [executeStream, executeStream, keyStream, keyStream, (hentries v).1, (hentries v).2]
    simp only [flatMap_append, flatMap_cons, append_assoc, append_cancel_left_eq]
    exact ⟨append_cancel_right, fun h => h ▸ rfl⟩
  simp only [hline]
  constructor
  · intro hall
    by_contra hno
    have hlines := congrArg List.length (hall (v₀ ++ "x"))
    simp only [envLine, if_neg hno, length_append] at hlines
    have hone : "x".utf8ByteSize = 1 := rfl
    have hlonger : (utf8 (v₀ ++ "x")).length = (utf8 v₀).length + 1 := by
      simp [utf8, hone]
    omega
  · intro hin v
    simp only [envLine, if_pos hin]

def deployOf (files : List (Option String × List UInt8)) : KeyInputs :=
  ⟨.command "deploy", .ofEntries [("TOKEN", "abc")], files, "0.1.0", "linux-x86_64", "no-lockfile"⟩

end Vertz.Proofs
