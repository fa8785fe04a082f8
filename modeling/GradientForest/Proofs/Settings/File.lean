import GradientForest.Settings.File
import GradientForest.Proofs.Forest.JsonRoundTrip
import GradientForest.Proofs.Format.Toml.Document
import GradientForest.Proofs.Settings.Allowed
import GradientForest.Proofs.Text.FileName
import GradientForest.Proofs.Text.Utf8

/-!
# Settings files lose nothing

A settings file names every setting, and settings are read off their own values whatever
the format (`Settings.ofFields?_values`).  The values are names, counts and numbers.  Names
have no characters to escape.  The numbers of allowed settings are finite, and both formats
give them back to the last bit, JSON with an exponent for some of them, TOML always without.
JSON has all counts, TOML has those below `2 ^ 63`.

So what is saved is loaded again, and nothing but a count that TOML does not have keeps
allowed settings from being written (`Settings.load_saveOver`).
-/

namespace GradientForest

open scoped Scalar

/-! ## Endings -/

/-- The extension of the files of a format. -/
def SettingsFormat.extension : SettingsFormat → String
  | .json => "json"
  | .toml => "toml"

/-- A path that ends in the extension of a format, behind a name, asks for this format. -/
theorem SettingsFormat.ofPath_eq (format : SettingsFormat) {path : String} {front : List Char}
    {c : Char} (hc : c ≠ '/')
    (hpath : path.toList = front ++ c :: '.' :: format.extension.toList) :
    ofPath path = .ok format := by
  have hextension : FileName.extension? path = some format.extension := by
    rw [FileName.extension?_eq hpath hc, String.ofList_toList]
    all_goals cases format <;> decide
  rw [ofPath, hextension]
  cases format <;> rfl

namespace Settings

variable {s : Settings Binary64}

/-! ## Values -/

/-- Settings are read off their values. -/
theorem ofFields?_values {β : Type} {word? : β → Option String} {count? : β → Option UInt64}
    {float? : β → Option Binary64} {task numTrees rate maxDepth lambda numThreads verbosity : β}
    (htask : word? task = some s.task.name) (hnumTrees : count? numTrees = some s.numTrees)
    (hrate : float? rate = some s.learningRate) (hmaxDepth : count? maxDepth = some s.maxDepth)
    (hlambda : float? lambda = some s.lambda) (hnumThreads : count? numThreads = some s.numThreads)
    (hverbosity : word? verbosity = some s.verbosity.name) :
    ofFields? word? count? float? [some task, some numTrees, some rate, some maxDepth,
      some lambda, some numThreads, some verbosity] = some s := by
  simp [ofFields?, orElse?, htask, hnumTrees, hrate, hmaxDepth, hlambda, hnumThreads, hverbosity,
    Task.ofName?_name]

/-! ## JSON -/

/-- Allowed settings are read from JSON as they were written. -/
theorem ofJson?_toJson (hs : s.Allowed) : ofJson? s.toJson = some s := by
  obtain ⟨rate, hrate, hreadRate⟩ := Json.readsBack_number s.learningRate
  obtain ⟨lambda, hlambda, hreadLambda⟩ := Json.readsBack_number s.lambda
  have htask : Json.Plain s.task.name := by cases s.task <;> decide
  have hverbosity : Json.Plain s.verbosity.name := by cases s.verbosity <;> decide
  have hdocument : Json.ofString? s.toJson = _ := Json.ofString?_document <|
    .object <| .cons (by decide) (.word htask) <|
    .cons (by decide) (Json.reads_count s.numTrees) <| .cons (by decide) hrate <|
    .cons (by decide) (Json.reads_count s.maxDepth) <| .cons (by decide) hlambda <|
    .cons (by decide) (Json.reads_count s.numThreads) <|
    .cons (by decide) (.word hverbosity) .nil
  rw [ofJson?, hdocument]
  refine ofFields?_values rfl (Json.count?_ofCount _) ?_ (Json.count?_ofCount _) ?_
    (Json.count?_ofCount _) rfl
  · exact hreadRate.trans (if_pos hs.isFinite_learningRate)
  · exact hreadLambda.trans (if_pos hs.isFinite_lambda)

/-! ## TOML -/

/-- The lines of a TOML document. -/
def tomlLines (s : Settings Binary64) : List (String × List Char) :=
  [("mode", (tomlWord s.task.name).toList), ("num_trees", (toString s.numTrees).toList),
    ("learning_rate", NumberStyle.toml.chars s.learningRate),
    ("max_depth", (toString s.maxDepth).toList),
    ("lambda", NumberStyle.toml.chars s.lambda),
    ("num_threads", (toString s.numThreads).toList),
    ("verbosity", (tomlWord s.verbosity.name).toList)]

theorem toList_tomlLine (key value : String) :
    (tomlLine key value).toList = Toml.line key value.toList := by
  simp [tomlLine, Toml.line]

/-- A count within the bound of TOML stands for itself. -/
theorem reads_toString {n : UInt64} (h : n.toNat ≤ maxTomlCount) :
    Toml.Reads (toString n).toList (.integer n.toNat) := by
  rw [Literal.toList_toString]
  refine .integer ?_
  have hbound : (maxTomlCount : ℤ) = Int64.maxValue.toInt := by decide
  omega

theorem reads_tomlWord {s : String} (h : Toml.Plain s) :
    Toml.Reads (tomlWord s).toList (.text s) := by
  have hchars : (tomlWord s).toList = '"' :: (s.toList ++ ['"']) := by simp [tomlWord]
  rw [hchars]
  exact .word h

/-- The entries of a TOML document. -/
def tomlEntries (s : Settings Binary64) : Toml.Entries :=
  [("mode", .text s.task.name), ("num_trees", .integer s.numTrees.toNat),
    ("learning_rate", .float s.learningRate), ("max_depth", .integer s.maxDepth.toNat),
    ("lambda", .float s.lambda), ("num_threads", .integer s.numThreads.toNat),
    ("verbosity", .text s.verbosity.name)]

theorem count?_integer (n : UInt64) : Toml.count? (.integer n.toNat) = some n := by
  rw [Toml.count?, if_pos (Int.natCast_nonneg _), Int.toNat_natCast, UInt64.ofNat_toNat]

/-- Allowed settings are read from TOML as they were written. -/
theorem ofToml?_of_toToml? (hs : s.Allowed) {text : String} (h : s.toToml? = some text) :
    ofToml? text = some s := by
  rw [toToml?] at h
  split_ifs at h with hcounts
  obtain ⟨hnumTrees, hmaxDepth, hnumThreads⟩ := hcounts
  have htext : text.toList = s.tomlLines.flatMap fun l => Toml.line l.1 l.2 := by
    rw [← Option.some.inj h]
    simp [toList_tomlLine, tomlLines, NumberStyle.render]
  have htask : Toml.Plain s.task.name := by cases s.task <;> decide
  have hverbosity : Toml.Plain s.verbosity.name := by cases s.verbosity <;> decide
  have hlines : Toml.ReadsLines s.tomlLines s.tomlEntries :=
    .cons (by decide) (reads_tomlWord htask) <| .cons (by decide) (reads_toString hnumTrees) <|
    .cons (by decide) (Toml.reads_number hs.isFinite_learningRate) <|
    .cons (by decide) (reads_toString hmaxDepth) <|
    .cons (by decide) (Toml.reads_number hs.isFinite_lambda) <|
    .cons (by decide) (reads_toString hnumThreads) <|
    .cons (by decide) (reads_tomlWord hverbosity) .nil
  have hkeys : fieldNames.Nodup := by decide
  rw [ofToml?, Toml.Document.read?_lines htext hlines hkeys]
  exact ofFields?_values rfl (count?_integer _) rfl (count?_integer _) rfl (count?_integer _) rfl

/-! ## Files -/

section Files

variable {path : String} {writable : Bool} {file : Option (List UInt8)}

/-- An allowed depth has a few digits, so only the other counts can be too large for TOML. -/
theorem toToml?_eq_none_iff (hs : s.Allowed) :
    s.toToml? = none ↔ 2 ^ 63 - 1 < s.numTrees.toNat ∨ 2 ^ 63 - 1 < s.numThreads.toNat := by
  have hbound : maxTomlCount = 2 ^ 63 - 1 := by decide
  have hdepth : s.maxDepth.toNat ≤ maxTomlCount := hs.maxDepth_lt.le.trans (by decide)
  rw [toToml?, ← hbound]
  split_ifs with hcounts
  · simp only [false_iff]
    omega
  · simp only [true_iff]
    omega

/-- Allowed settings have a text in every format, but for large counts in TOML. -/
theorem exists_encode_error_iff (hs : s.Allowed) {format : SettingsFormat} :
    (∃ e, s.encode format = .error e) ↔
      format = .toml ∧ (2 ^ 63 - 1 < s.numTrees.toNat ∨ 2 ^ 63 - 1 < s.numThreads.toNat) := by
  cases format with
  | json => simp [encode]
  | toml =>
    rw [← toToml?_eq_none_iff hs, encode]
    cases htext : s.toToml? <;> simp

theorem decode_of_encode (hs : s.Allowed) {format : SettingsFormat} {text : String}
    (h : s.encode format = .ok text) : decode text format = .ok s := by
  cases format with
  | json =>
    rw [encode] at h
    rw [decode, ← Except.ok.inj h, ofJson?_toJson hs]
  | toml =>
    rw [encode] at h
    cases htext : s.toToml? with
    | none =>
      rw [htext] at h
      cases h
    | some text' =>
      rw [htext] at h
      rw [decode, ← Except.ok.inj h, ofToml?_of_toToml? hs htext]

/-- Saving takes a format, a text in this format and a path that can be written to. -/
theorem save_eq_ok_iff {text : String} :
    s.save path writable = .ok text ↔
      (∃ format, SettingsFormat.ofPath path = .ok format ∧ s.encode format = .ok text) ∧
        writable = true := by
  rw [save]
  cases hformat : SettingsFormat.ofPath path with
  | error e => simp [bind, Except.bind]
  | ok format =>
    cases htext : s.encode format <;> cases writable <;>
      simp [bind, Except.bind, pure, Except.pure, htext]

/-- After success the file is the text, and otherwise it is what it was. -/
theorem saveOver_cases (s : Settings Binary64) (path : String) (writable : Bool)
    (file : Option (List UInt8)) :
    (∃ text, s.save path writable = .ok text ∧
      s.saveOver path writable file = (some (Text.toUtf8 text), .ok ())) ∨
    ∃ e, s.save path writable = .error e ∧ s.saveOver path writable file = (file, .error e) := by
  rw [saveOver]
  cases s.save path writable with
  | ok text => exact .inl ⟨text, rfl, rfl⟩
  | error e => exact .inr ⟨e, rfl, rfl⟩

theorem saveOver_ok_iff {format : SettingsFormat}
    (hformat : SettingsFormat.ofPath path = .ok format) :
    (s.saveOver path writable file).2 = .ok () ↔
      (∃ text, s.encode format = .ok text) ∧ writable = true := by
  have hsave (text : String) : s.save path writable = .ok text ↔
      s.encode format = .ok text ∧ writable = true := by
    simp [save_eq_ok_iff, hformat]
  obtain ⟨text, htext, hover⟩ | ⟨e, he, hover⟩ := saveOver_cases s path writable file
  · obtain ⟨hencode, hwritable⟩ := (hsave text).1 htext
    rw [hover]
    exact iff_of_true rfl ⟨⟨text, hencode⟩, hwritable⟩
  · rw [hover]
    refine iff_of_false (fun h => nomatch h) ?_
    rintro ⟨⟨text, hencode⟩, hwritable⟩
    cases he.symm.trans ((hsave text).2 ⟨hencode, hwritable⟩)

/-- A text at a path is loaded in the format of the path. -/
theorem load_eq {format : SettingsFormat} (hformat : SettingsFormat.ofPath path = .ok format)
    (text : String) :
    load path (some (Text.toUtf8 text)) = decode text format >>= build := by
  rw [load, Option.bind_some, Text.ofUtf8?_toUtf8, hformat]
  rfl

/-- Settings that are allowed are loaded as they were saved.  They are saved if the path asks
for a format, can be written to and the format has their counts, and TOML has those below
`2 ^ 63`.  What cannot be saved leaves the file as it was. -/
theorem load_saveOver (hs : s.validate = .ok ()) (path : String) (writable : Bool)
    (file : Option (List UInt8)) :
    ((s.saveOver path writable file).2 = .ok () →
      load path (s.saveOver path writable file).1 = .ok s) ∧
    (∀ e, (s.saveOver path writable file).2 = .error e →
      (s.saveOver path writable file).1 = file) ∧
    (∀ format, SettingsFormat.ofPath path = .ok format →
      ((s.saveOver path writable file).2 = .ok () ↔
        (∃ text, s.encode format = .ok text) ∧ writable = true) ∧
      ((∃ e, s.encode format = .error e) ↔ format = .toml ∧
        (2 ^ 63 - 1 < s.numTrees.toNat ∨ 2 ^ 63 - 1 < s.numThreads.toNat))) ∧
    ∀ (format : SettingsFormat) (front : List Char) (c : Char), c ≠ '/' →
      path.toList = front ++ c :: '.' :: format.extension.toList →
      SettingsFormat.ofPath path = .ok format := by
  have hallowed := validate_eq_ok_iff.1 hs
  refine ⟨?_, ?_, ?_, ?_⟩
  · intro hok
    obtain ⟨text, hsave, hover⟩ | ⟨e, -, hover⟩ := saveOver_cases s path writable file
    · obtain ⟨⟨format, hformat, hencode⟩, -⟩ := save_eq_ok_iff.1 hsave
      rw [hover, load_eq hformat, decode_of_encode hallowed hencode]
      change (s.validate >>= fun _ => .ok s) = _
      rw [hs]
      rfl
    · rw [hover] at hok
      cases hok
  · intro e herror
    obtain ⟨text, -, hover⟩ | ⟨e', -, hover⟩ := saveOver_cases s path writable file
    · rw [hover] at herror
      cases herror
    · rw [hover]
  · intro format hformat
    exact ⟨saveOver_ok_iff hformat, exists_encode_error_iff hallowed⟩
  · intro format front c hc hpath
    exact format.ofPath_eq hc hpath

/-- Settings with a learning rate that has no short decimal, minus zero, and more threads than
TOML can count. -/
def crowdedSettings : Settings Binary64 :=
  ⟨.classification, 9223372036854775807, 1 / 3, 51, -0, 9223372036854775808, .debug⟩

theorem load_saveOver_crowdedSettings :
    crowdedSettings.validate = .ok () ∧
    (crowdedSettings.saveOver "a/b.json" true none).2 = .ok () ∧
    load "a/b.json" (crowdedSettings.saveOver "a/b.json" true none).1 = .ok crowdedSettings ∧
    (crowdedSettings.saveOver "b.toml" true (some [65])).1 = some [65] := by
  have hvalid : crowdedSettings.validate = .ok () := by decide +kernel
  obtain ⟨hload, -, hok, -⟩ := load_saveOver hvalid "a/b.json" true none
  obtain ⟨-, hkept, -, -⟩ := load_saveOver hvalid "b.toml" true (some [65])
  have hsaved := (hok .json (by decide)).1.2 ⟨⟨_, rfl⟩, rfl⟩
  have hrefused : (crowdedSettings.saveOver "b.toml" true (some [65])).2 =
      .error (.settings .unwritableToml) := by decide +kernel
  exact ⟨hvalid, hsaved, hload hsaved, hkept _ hrefused⟩

end Files

end Settings

end GradientForest
