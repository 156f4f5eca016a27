import CppFreshman.Pool.Contents
import CppFreshman.Pool.Steady
import CppFreshman.Pool.Throwing
import CppFreshman.Queue.Linear
import CppFreshman.Queue.Sequential
import CppFreshman.Queue.Undisturbed
import CppFreshman.SharedPtr.Advance
import CppFreshman.Dict.Freshness
import CppFreshman.Dict.Joins
import CppFreshman.Dict.Serving
import CppFreshman.Dict.Written
import CppFreshman.Graph.Executor
import CppFreshman.Graph.Lease
import CppFreshman.Schema.Concurrent
import CppFreshman.Schema.Metadata
import CppFreshman.Schema.Pooled
import CppFreshman.Schema.ReusePool
import CppFreshman.Schema.Updates
import CppFreshman.Text.Numbers
import CppFreshman.Text.Runs
import CppFreshman.Sorting.TestData
import CppFreshman.Construct.Constructible
import CppFreshman.Graph.Builder
