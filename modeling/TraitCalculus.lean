import TraitCalculus.Main
import TraitCalculus.Proofs.AlphaEquivalence
import TraitCalculus.Proofs.FreshNames
import TraitCalculus.Proofs.SourceNames
import TraitCalculus.Token.Cursor
import TraitCalculus.Workload
import TraitCalculus.Proofs.TypeScope
import TraitCalculus.Proofs.Elaboration
import TraitCalculus.Proofs.DictionaryScope
import TraitCalculus.Proofs.ClosureSemantics
import TraitCalculus.Proofs.Unloading
import TraitCalculus.Proofs.Simulation
import TraitCalculus.Proofs.LexicalScope
import TraitCalculus.Proofs.SemanticTypes
import TraitCalculus.Proofs.TypeSoundness
import TraitCalculus.Proofs.PlainPrograms
import TraitCalculus.Proofs.TypeSafety
import TraitCalculus.Proofs.Scanning
import TraitCalculus.Proofs.GrammarScanning
import TraitCalculus.Proofs.StatementSequences
import TraitCalculus.Proofs.ReadingWords
import TraitCalculus.Proofs.WrittenTypes
import TraitCalculus.Proofs.WrittenExpressions
import TraitCalculus.Proofs.Decimals
import TraitCalculus.Proofs.FullForms
import TraitCalculus.Proofs.PrintedForms
import TraitCalculus.Proofs.LexedForms
import TraitCalculus.Proofs.Readings
import TraitCalculus.Proofs.ReadingTallies
import TraitCalculus.Proofs.RoundTrips
import TraitCalculus.Proofs.LexedTokens
import TraitCalculus.Proofs.NormalForms
import TraitCalculus.Proofs.TypeEquality
import TraitCalculus.Proofs.TypeSubstitution
import TraitCalculus.Proofs.DrawnInstances
import TraitCalculus.Proofs.Matching
import TraitCalculus.Proofs.TermSubstitution
import TraitCalculus.Proofs.RepeatedRuns
import TraitCalculus.Proofs.Retyping
import TraitCalculus.Proofs.RepeatedTyping
import TraitCalculus.Proofs.SuppliedCalls
import TraitCalculus.Proofs.DictionaryStock
import TraitCalculus.Proofs.FieldOccurrences
import TraitCalculus.Proofs.TypeVariableNames
import TraitCalculus.Proofs.AppliedAbbreviations
import TraitCalculus.Proofs.TypeNameScope
import TraitCalculus.Proofs.ImplBlocks
import TraitCalculus.Proofs.DecidedTests
import TraitCalculus.Proofs.EvaluatedTerms
import TraitCalculus.Proofs.ValueSubstitution
import TraitCalculus.Proofs.ListBuiltins
import TraitCalculus.Proofs.EmptyLists
import TraitCalculus.Proofs.RecordFunctions
import TraitCalculus.Proofs.StructConstructors
import TraitCalculus.Proofs.TypeCongruence
import TraitCalculus.Proofs.PrintedTypes
import TraitCalculus.Proofs.LexemePatterns
import TraitCalculus.Proofs.ReadingProgress
import TraitCalculus.Proofs.EmptyStatements
import TraitCalculus.Proofs.ScopeTables
