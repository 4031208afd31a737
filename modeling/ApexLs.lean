import ApexLs.Types.LayeredCompilation
import ApexLs.Types.SerializedTable
import ApexLs.Symbols.FindReferences
import ApexLs.Symbols.PhantomEdges
import ApexLs.Symbols.OrderIndependence
import ApexLs.Symbols.SymbolManager
import ApexLs.Symbols.MergedTables
import ApexLs.Symbols.CacheCoherence
import ApexLs.Symbols.Replacement
import ApexLs.Services.DocumentStateCache
import ApexLs.Server.WorkspaceUploads
import ApexLs.Services.DocumentChangeBatcher
import ApexLs.Services.OpenedDocuments
import ApexLs.Services.DocumentProcessing
import ApexLs.Queue.PriorityScheduler
import ApexLs.Services.PrerequisiteOrchestration
import ApexLs.Validation.TierResults
import ApexLs.Compiler.CompilationWorkerPool
import ApexLs.Server.SerialWork
import ApexLs.Server.EnrichmentLevels
import ApexLs.Server.StaleReads
import ApexLs.Compiler.PipelineAccounts
import ApexLs.Server.DocumentOrder
import ApexLs.Validation.TryCatchFinally
import ApexLs.Validation.UnreachableStatements
import ApexLs.Validation.ControlFlow
import ApexLs.Validation.AbstractMethods
import ApexLs.Validation.InterfaceConformance
import ApexLs.Validation.TypeAssignability
import ApexLs.Cache.StdlibRoundTrip
import ApexLs.Resolution.GenericTypeSubstitution
import ApexLs.Resolution.LocalOccurrences
import ApexLs.Validation.DuplicateSymbols
import ApexLs.Validation.FinalAssignments
import ApexLs.Validation.InstanceofExpressions
import ApexLs.Symbols.SubtypeQueries
import ApexLs.Symbols.Eviction
import ApexLs.Symbols.FileRemoval
import ApexLs.Utils.CommentRanking
import ApexLs.Cache.TypeRoundTrip
import ApexLs.Resolution.LexicalScopes
import ApexLs.Resolution.InnermostBlock
import ApexLs.Types.IdentifierParts
import ApexLs.Symbols.CircularDependencies
import ApexLs.Symbols.RetryAccounts
import ApexLs.Resolution.ScopeChains
import ApexLs.Symbols.CountedRuns
import ApexLs.Symbols.ReferenceConservation
import ApexLs.Types.ParameterSignatures
import ApexLs.Utils.CacheCallbacks
import ApexLs.Queue.QueuedBreakdown
import ApexLs.Queue.ReliefPoints
import ApexLs.Symbols.BatchCoverage
import ApexLs.Services.ChangePromises
import ApexLs.Services.PrerequisiteKeys
import ApexLs.Server.LoadSessions
import ApexLs.Services.EnrichmentRuns
import ApexLs.Queue.CodeActionCoalescing
import ApexLs.Queue.RequestOutcomes
import ApexLs.Resolution.MostSpecificSymbol
import ApexLs.Validation.MethodSpelling
import ApexLs.Validation.AccessRules
import ApexLs.Validation.MethodAmbiguity
import ApexLs.Resolution.LexicalReferences
import ApexLs.Resolution.QualifiedTypeNames
import ApexLs.Resolution.StandardClassLoads
import ApexLs.Parser.BlockTrees
import ApexLs.Services.RegistryCoherence
import ApexLs.Resolution.DottedTypeNames
import ApexLs.Services.SharedRequests
import ApexLs.Resolution.ResolutionGuard
import ApexLs.Resolution.InheritedCalls
import ApexLs.Completion.OverrideCompletions
import ApexLs.Completion.MemberCompletions
import ApexLs.Symbols.OverloadReferences
import ApexLs.Resolution.SameFileTargets
import ApexLs.Resolution.InheritedMembers
import ApexLs.Validation.StringLiterals
import ApexLs.Server.WorkerDocuments
import ApexLs.Utils.FQNUtils
import ApexLs.Utils.CaseInsensitiveHashMap
import ApexLs.Services.WorkspaceLoadCoordinator
import ApexLs.Server.CursorSymbols
import ApexLs.Symbols.PatternInvalidation
import ApexLs.Services.SObjectCalls
